import PagedRing.Proofs.Lawful

/-!
# Orderly states

A state is `Orderly` if its history is lawful, if it stands as its history says, and if each drain that is not shared
is in its place only while no transfer of it runs. `Extends` says what steps may add to an orderly state while others
run: entries of new steps, none of which begins a transfer of a drain that is in use.

* `Orderly.note`: an event that leaves the drains and the source alone.
* `Orderly.opened`, `Orderly.wrote`, `Orderly.taken`, `Orderly.claimed`: the events and settings that do not.
* `Extends.trans`: what is added adds up.
* `Extends.settledTo`: what others do leaves the cursor of a drain in use alone.
-/

namespace PagedRing.Session

/-- A state whose history is lawful and that stands as its history says. -/
structure Orderly (origin : Source) (s : State) : Prop where
  lawful : Lawful origin s.past
  faithful : Faithful origin s.past s.drains s.source
  older : ∀ e ∈ s.past, e.step < s.clock
  free : ∀ d drain, s.drain? d = some drain → drain.mode ≠ .concurrent → ∀ m, drainOf m s.past = some d → Over m s.past

/-- What steps add to a state while those that run already stand still. -/
structure Extends (s t : State) : Prop where
  clock : s.clock ≤ t.clock
  past : ∃ new, t.past = new ++ s.past ∧
    ∀ e ∈ new, s.clock ≤ e.step ∧ ∀ d : Nat, s.drains[d]? = some none → e.event.drain? ≠ some d
  shut : ∀ d : Nat, s.drains[d]? = some none → t.drains[d]? = some none

/-- Whether all transfers from a step on are over. -/
def Settled (n : Nat) (s : State) : Prop := ∀ m, n ≤ m → drainOf m s.past ≠ none → Over m s.past

variable {origin : Source} {s t u : State} {n m d : Nat} {event : Event} {drain : Drain}

/-! ## Additions -/

theorem Extends.refl (s : State) : Extends s s :=
  ⟨Nat.le_refl _, ⟨[], rfl, fun _ he => by cases he⟩, fun _ h => h⟩

/-- What is added adds up. -/
theorem Extends.trans (h : Extends s t) (h' : Extends t u) : Extends s u := by
  obtain ⟨new, hnew, hold⟩ := h.past
  obtain ⟨new', hnew', hold'⟩ := h'.past
  refine ⟨Nat.le_trans h.clock h'.clock, ⟨new' ++ new, ?_, ?_⟩, fun d hd => h'.shut d (h.shut d hd)⟩
  · rw [hnew', hnew, List.append_assoc]
  · intro e he
    rcases List.mem_append.mp he with he | he
    · exact ⟨Nat.le_trans h.clock (hold' e he).1, fun d hd => (hold' e he).2 d (h.shut d hd)⟩
    · exact hold e he

/-- The history of a state is a moment of every later one. -/
theorem Extends.suffix (h : Extends s t) : s.past <:+ t.past := by
  obtain ⟨new, hnew, -⟩ := h.past
  rw [hnew]
  exact List.suffix_append new s.past

/-- A step that runs already has done nothing meanwhile. -/
theorem Extends.deeds (h : Extends s t) (hn : n < s.clock) : deeds n t.past = deeds n s.past := by
  obtain ⟨new, hnew, hold⟩ := h.past
  rw [hnew]
  exact deeds_append fun e he => by have := (hold e he).1; omega

theorem Extends.drainOf (h : Extends s t) (hn : n < s.clock) : drainOf n t.past = drainOf n s.past := by
  rw [Session.drainOf, Session.drainOf, h.deeds hn]

theorem Extends.over (h : Extends s t) (ho : Over n s.past) : Over n t.past := by
  obtain ⟨new, hnew, -⟩ := h.past
  rw [hnew]
  exact ho.append

/-- A drain that began a transfer was named by an event. -/
theorem drain?_of_drainOf {past : List Entry} (h : drainOf n past = some d) :
    ∃ e ∈ past, e.step = n ∧ e.event.drain? = some d := by
  obtain ⟨event, hev, hd⟩ := List.exists_of_findSome?_eq_some h
  obtain ⟨e, he, hn, rfl, -⟩ := mem_deeds.mp hev
  exact ⟨e, he, hn, hd⟩

/-- No new step transfers for a drain that is in use. -/
theorem Extends.drainOf_ne (h : Extends s t) (hs : Orderly origin s) (hd : s.drains[d]? = some none)
    (hn : s.clock ≤ n) : Session.drainOf n t.past ≠ some d := by
  intro ho
  obtain ⟨new, hnew, hold⟩ := h.past
  obtain ⟨e, he, rfl, hed⟩ := drain?_of_drainOf ho
  rw [hnew] at he
  rcases List.mem_append.mp he with he | he
  · exact (hold e he).2 d hd hed
  · have := hs.older e he
    omega

/-- What others do leaves the cursor of a drain in use alone. -/
theorem Extends.settledTo (h : Extends s t) (hs : Orderly origin s) (ht : Orderly origin t)
    (hd : s.drains[d]? = some none) (ho : opened? d s.past = some drain) :
    settledTo d t.past = settledTo d s.past := by
  obtain ⟨new, hnew, hold⟩ := h.past
  have hlaw := ht.lawful
  have hno : ∀ e ∈ new, Session.drainOf e.step t.past ≠ some d := fun e he => h.drainOf_ne hs hd (hold e he).1
  rw [hnew] at hlaw hno ⊢
  exact hlaw.settledTo_append ho hno

/-- The steps that are over stay over, and of the others only the new ones may begin. -/
theorem Settled.extends (h : Settled n s) (he : Extends s t) (ht : Settled s.clock t) : Settled n t := by
  intro m hm hd
  rcases Nat.lt_or_ge m s.clock with hlt | hge
  · rw [he.drainOf hlt] at hd
    exact he.over (h m hm hd)
  · exact ht m hge hd

namespace Orderly

/-! ## Settings -/

/-- What the history does not speak of does not matter. -/
theorem same (h : Orderly origin s) (hp : t.past = s.past) (hd : t.drains = s.drains) (hs : t.source = s.source)
    (hc : s.clock ≤ t.clock) : Orderly origin t := by
  refine ⟨hp ▸ h.lawful, ?_, fun e he => Nat.lt_of_lt_of_le (h.older e (hp ▸ he)) hc, ?_⟩
  · rw [hp, hd, hs]; exact h.faithful
  · intro d drain hdrain hm m ho
    rw [hp] at ho ⊢
    refine h.free d drain ?_ hm m ho
    rw [State.drain?, ← hd]
    exact hdrain

/-- A shared drain is in its place, with its cursor where its last claim ended. -/
theorem place_concurrent (h : Orderly origin s) (ho : opened? d s.past = some drain) (hm : drain.mode = .concurrent) :
    s.drains[d]? = some (some ⟨drain.geometry, claimedTo d s.past, .concurrent⟩) :=
  (place_concurrent_iff ho hm).mp (h.faithful.place d)

/-- A drain that is in its place was opened, and its history says where its cursor stands. -/
theorem opened_of_drain? (h : Orderly origin s) (hd : s.drain? d = some drain) :
    ∃ first, opened? d s.past = some first ∧ drain.geometry = first.geometry ∧
      ((drain.mode = .concurrent ∧ first.mode = .concurrent ∧ drain.cursor = claimedTo d s.past) ∨
        (drain.mode ≠ .concurrent ∧ first.mode ≠ .concurrent ∧ drain.cursor = settledTo d s.past)) := by
  have hp := h.faithful.place d
  have hdrain : s.drains[d]? = some (some drain) := Option.join_eq_some_iff.mp hd
  unfold Place at hp
  cases ho : opened? d s.past with
  | none => rw [ho, hdrain] at hp; cases hp
  | some first =>
    refine ⟨first, rfl, ?_⟩
    simp only [ho, hdrain] at hp
    cases hm : first.mode with
    | concurrent =>
      simp only [hm, Option.some.injEq] at hp
      subst hp
      exact ⟨rfl, Or.inl ⟨rfl, rfl, rfl⟩⟩
    | sequential scratch =>
      simp only [hm, Option.some.injEq, reduceCtorEq, false_or] at hp
      obtain ⟨own, rfl⟩ := hp
      exact ⟨rfl, Or.inr ⟨DrainMode.noConfusion, DrainMode.noConfusion, rfl⟩⟩

/-! ## Events -/

/-- One more entry, after which the drains and the source stand as the history says. -/
theorem cons (h : Orderly origin s) {e : Entry} (hp : t.past = e :: s.past) (hn : e.step < s.clock)
    (hc : s.clock ≤ t.clock) (ha : Allowed s.past e) (he : Faithful origin (e :: s.past) e.drains e.source)
    (hf : Faithful origin (e :: s.past) t.drains t.source)
    (hfree : ∀ d drain, t.drain? d = some drain → drain.mode ≠ .concurrent →
      ∀ m, drainOf m (e :: s.past) = some d → Over m (e :: s.past)) : Orderly origin t := by
  refine ⟨?_, ?_, ?_, ?_⟩
  · rw [hp]; exact ⟨ha, he, h.lawful⟩
  · rw [hp]; exact hf
  · rw [hp]
    intro e' he'
    rcases List.mem_cons.mp he' with rfl | he'
    · exact Nat.lt_of_lt_of_le hn hc
    · exact Nat.lt_of_lt_of_le (h.older e' he') hc
  · rw [hp]; exact hfree

/-- An event that leaves the drains and the source alone. -/
theorem note (h : Orderly origin s) (hn : n < s.clock) (hq : event.quiet = true) (hb : event.drain? = none)
    (ha : Allowed s.past ⟨n, event, s.drains, s.source⟩) : Orderly origin (s.note n event) := by
  have hf : Faithful origin (⟨n, event, s.drains, s.source⟩ :: s.past) s.drains s.source := by
    refine ⟨fun d => (Place.quiet hq).mpr (h.faithful.place d), fun ring hring => ?_⟩
    rw [written_quiet hq]
    exact h.faithful.source ring hring
  refine h.cons (State.past_note s n event) hn (Nat.le_refl _) ha hf hf fun d drain hd hm m ho => ?_
  rw [drainOf_of_drain? hb] at ho
  exact (h.free d drain hd hm m ho).cons

/-- A drain is opened with its cursor in its ring. -/
theorem opened (h : Orderly origin s) (hn : n < s.clock) (hd : drainOf n s.past = none)
    (hc : drain.cursor < drain.geometry.capacity) :
    Orderly origin ({ s with drains := s.drains.push (some drain) }.note n (.opened s.drains.size drain.cursor)) := by
  have hnew : opened? s.drains.size s.past = none := by
    have := h.faithful.place s.drains.size
    rw [Array.getElem?_size] at this
    cases ho : opened? s.drains.size s.past with
    | none => rfl
    | some first =>
      simp only [Place, ho] at this
      split at this <;> simp at this
  have hf : Faithful origin (⟨n, .opened s.drains.size drain.cursor, s.drains.push (some drain), s.source⟩ :: s.past)
      (s.drains.push (some drain)) s.source := by
    refine ⟨fun d => ?_, h.faithful.source⟩
    by_cases hsd : s.drains.size = d
    · subst hsd
      simp only [Place, opened?, ↓reduceIte, Array.getElem?_push_size, Option.join_some, claimedTo, settledTo]
      cases hm : drain.mode with
      | concurrent => simp only [← hm]
      | sequential own => exact Or.inr ⟨own, by simp only [← hm]⟩
    · have := h.faithful.place d
      rw [Array.getElem?_push, if_neg (Ne.symm hsd)]
      simpa only [Place, opened?, claimedTo, settledTo, hsd, ↓reduceIte] using this
  refine h.cons (State.past_note _ n _) hn (Nat.le_refl _) ⟨hd, hnew, drain, Array.getElem?_push_size, rfl, hc⟩ hf hf
    fun d drain' hd' hm m ho => ?_
  rw [drainOf_of_drain? rfl] at ho
  obtain ⟨first, hfirst⟩ := Lawful.opened_of_drainOf h.lawful ho
  have hsd : s.drains.size ≠ d := by
    rintro rfl
    rw [hnew] at hfirst
    cases hfirst
  refine (h.free d drain' ?_ hm m ho).cons
  simpa only [State.drain?, State.note, Array.getElem?_push, if_neg (Ne.symm hsd)] using hd'

/-- Bytes are written to the ring. -/
theorem wrote (h : Orderly origin s) (hn : n < s.clock) (hd : drainOf n s.past = none) {ring : Ring}
    (hs : s.source = .ring ring) (bytes : Bytes) :
    Orderly origin ({ s with source := .ring (ring.write bytes) }.note n (.wrote bytes)) := by
  have hf : Faithful origin (⟨n, .wrote bytes, s.drains, .ring (ring.write bytes)⟩ :: s.past) s.drains
      (.ring (ring.write bytes)) := by
    refine ⟨h.faithful.place, fun first hfirst => ?_⟩
    have := h.faithful.source first hfirst
    rw [hs, Source.ring.injEq] at this
    rw [this, written, Ring.write_append]
  refine h.cons (State.past_note _ n _) hn (Nat.le_refl _) hd hf hf fun d drain hdrain hm m ho => ?_
  rw [drainOf_of_drain? rfl] at ho
  exact (h.free d drain hdrain hm m ho).cons

/-- A source that is no ring may change as it likes. -/
theorem reset (h : Orderly origin s) {pages : Array Bytes} {position : Nat} (hs : s.source = .table pages position)
    (source : Source) : Orderly origin { s with source } := by
  refine ⟨h.lawful, ⟨h.faithful.place, fun ring hring => ?_⟩, h.older, h.free⟩
  have := h.faithful.source ring hring
  rw [hs] at this
  cases this

/-- A drain that is not shared may be taken from its place. -/
theorem taken (h : Orderly origin s) (hd : s.drain? d = some drain) (hm : drain.mode ≠ .concurrent) :
    Orderly origin (s.setDrain d none) := by
  obtain ⟨first, ho, -, ⟨hm', -⟩ | ⟨-, hm', -⟩⟩ := h.opened_of_drain? hd
  · exact absurd hm' hm
  · refine ⟨h.lawful, ⟨fun d' => ?_, h.faithful.source⟩, h.older, fun d' drain' hd' => ?_⟩
    · by_cases hdd : d = d'
      · subst hdd
        have hlt : d < s.drains.size := (Array.getElem?_eq_some_iff.mp (Option.join_eq_some_iff.mp hd)).1
        show Place d s.past (s.setDrain d none).drains[d]?
        rw [State.setDrain, Array.getElem?_setIfInBounds_self_of_lt hlt]
        exact (place_sequential_iff ho hm').mpr (Or.inl rfl)
      · show Place d' s.past (s.setDrain d none).drains[d']?
        simpa only [State.setDrain, Array.getElem?_setIfInBounds_ne hdd] using h.faithful.place d'
    · by_cases hdd : d = d'
      · subst hdd
        simp only [State.drain?, State.setDrain, Array.getElem?_setIfInBounds, ↓reduceIte] at hd'
        split at hd' <;> cases hd'
      · refine h.free d' drain' ?_
        simpa only [State.drain?, State.setDrain, Array.getElem?_setIfInBounds_ne hdd] using hd'

/-! ## Events of transfers -/

/-- A transfer of a shared drain begins. -/
theorem began_concurrent (h : Orderly origin s) (hn : n < s.clock) (hnew : deeds n s.past = [])
    (hd : s.drain? d = some drain) (hm : drain.mode = .concurrent) (k : Nat) :
    Orderly origin (s.note n (.began d k)) := by
  have hf : Faithful origin (⟨n, .began d k, s.drains, s.source⟩ :: s.past) s.drains s.source :=
    ⟨fun d' => (Place.quiet rfl).mpr (h.faithful.place d'), h.faithful.source⟩
  have ha : Allowed s.past ⟨n, .began d k, s.drains, s.source⟩ :=
    ⟨hnew, drain, Option.join_eq_some_iff.mp hd, fun hm' => absurd hm hm'⟩
  refine h.cons (State.past_note s n _) hn (Nat.le_refl _) ha hf hf fun d' drain' hd' hm' m ho => ?_
  by_cases hmn : n = m
  · subst hmn
    rw [drainOf_began] at ho
    cases ho
    rw [show s.drain? d = some drain' from hd'] at hd
    cases hd
    exact absurd hm hm'
  · rw [drainOf_of_ne hmn] at ho
    exact (h.free d' drain' hd' hm' m ho).cons

/-- A transfer of a drain that is not shared begins and takes the drain from its place. -/
theorem began_sequential (h : Orderly origin s) (hn : n < s.clock) (hnew : deeds n s.past = [])
    (hd : s.drain? d = some drain) (hm : drain.mode ≠ .concurrent) {k : Nat}
    (hp : t.past = ⟨n, .began d k, s.drains, s.source⟩ :: s.past) (ht : t.drains = (s.setDrain d none).drains)
    (hs : t.source = s.source) (hc : s.clock ≤ t.clock) : Orderly origin t := by
  have hplace : ∀ {drains : Array (Option Drain)}, Faithful origin s.past drains s.source →
      Faithful origin (⟨n, .began d k, s.drains, s.source⟩ :: s.past) drains s.source :=
    fun hf => ⟨fun d' => (Place.quiet rfl).mpr (hf.place d'), hf.source⟩
  have ha : Allowed s.past ⟨n, .began d k, s.drains, s.source⟩ :=
    ⟨hnew, drain, Option.join_eq_some_iff.mp hd, fun _ => h.free d drain hd hm⟩
  have htaken := h.taken hd hm
  refine h.cons hp hn hc ha (hplace h.faithful) ?_ fun d' drain' hd' hm' m ho => ?_
  · rw [ht, hs]
    exact hplace htaken.faithful
  · have hd'' : (s.setDrain d none).drain? d' = some drain' := by rw [State.drain?, ← ht]; exact hd'
    by_cases hmn : n = m
    · subst hmn
      rw [drainOf_began] at ho
      cases ho
      simp only [State.drain?, State.setDrain, Array.getElem?_setIfInBounds, ↓reduceIte] at hd''
      split at hd'' <;> cases hd''
    · rw [drainOf_of_ne hmn] at ho
      exact (htaken.free d' drain' hd'' hm' m ho).cons

/-- A claim moves the cursor of its drain, and no other. -/
theorem claimed (h : Orderly origin s) (hn : n < s.clock) (hd : drainOf n s.past = some d)
    (ho : opened? d s.past = some drain) (hm : drain.mode = .concurrent) {start stop retries : Nat}
    (hp : t.past = ⟨n, .claimed start stop retries, t.drains, t.source⟩ :: s.past)
    (ht : t.drains = s.drains.modify d (Option.map fun drain => { drain with cursor := stop }))
    (hs : t.source = s.source) (hc : s.clock ≤ t.clock)
    (ha : Allowed s.past ⟨n, .claimed start stop retries, t.drains, t.source⟩) : Orderly origin t := by
  have hplace := h.place_concurrent ho hm
  have hf : Faithful origin (⟨n, .claimed start stop retries, t.drains, t.source⟩ :: s.past) t.drains t.source := by
    refine ⟨fun d' => ?_, fun ring hring => hs ▸ h.faithful.source ring hring⟩
    by_cases hdd : d = d'
    · subst hdd
      refine (place_concurrent_iff (by exact ho) hm).mpr ?_
      rw [ht, Array.getElem?_modify]
      simp only [↓reduceIte, hplace, Option.map_some, claimedTo, hd]
    · have hne : drainOf n s.past ≠ some d' := by rw [hd]; exact fun heq => hdd (Option.some.inj heq)
      refine (Place.of_ne (fun _ _ => Event.noConfusion) hne).mpr ?_
      rw [ht, Array.getElem?_modify, if_neg hdd]
      exact h.faithful.place d'
  refine h.cons hp hn hc ha hf hf fun d' drain' hd' hm' m hdm => ?_
  rw [drainOf_of_drain? rfl] at hdm
  refine (h.free d' drain' ?_ hm' m hdm).cons
  rw [State.drain?, ht, Array.getElem?_modify] at hd'
  by_cases hdd : d = d'
  · subst hdd
    simp only [↓reduceIte, hplace, Option.map_some, Option.join_some, Option.some.injEq] at hd'
    subst hd'
    exact absurd rfl hm'
  · rwa [if_neg hdd] at hd'

/-- A transfer of a shared drain ends. -/
theorem ended_concurrent (h : Orderly origin s) (hn : n < s.clock) (hd : drainOf n s.past = some d)
    (ho : opened? d s.past = some drain) (hm : drain.mode = .concurrent) {outcome : Except Halt Transfer}
    (ha : Allowed s.past ⟨n, .ended outcome, s.drains, s.source⟩) : Orderly origin (s.note n (.ended outcome)) := by
  have hf : Faithful origin (⟨n, .ended outcome, s.drains, s.source⟩ :: s.past) s.drains s.source := by
    refine ⟨fun d' => ?_, h.faithful.source⟩
    by_cases hdd : d = d'
    · subst hdd
      exact (place_concurrent_iff (by exact ho) hm).mpr (h.place_concurrent ho hm)
    · have hne : drainOf n s.past ≠ some d' := by rw [hd]; exact fun heq => hdd (Option.some.inj heq)
      exact (Place.of_ne (fun _ _ => Event.noConfusion) hne).mpr (h.faithful.place d')
  refine h.cons (State.past_note s n _) hn (Nat.le_refl _) ha hf hf fun d' drain' hd' hm' m hdm => ?_
  rw [drainOf_of_drain? rfl] at hdm
  exact (h.free d' drain' hd' hm' m hdm).cons

/-- A transfer of a drain that is not shared ends and puts the drain back into its place. -/
theorem ended_sequential (h : Orderly origin s) (hn : n < s.clock) (hd : drainOf n s.past = some d)
    (ho : opened? d s.past = some drain) (hm : drain.mode ≠ .concurrent) (hdrain : s.drains[d]? = some none)
    (hover : ∀ m, drainOf m s.past = some d → m = n ∨ Over m s.past) {outcome : Except Halt Transfer} {own : Scratch}
    {cursor : Nat} (hp : t.past = ⟨n, .ended outcome, t.drains, t.source⟩ :: s.past)
    (ht : t.drains = (s.setDrain d (some ⟨drain.geometry, cursor, .sequential own⟩)).drains) (hs : t.source = s.source)
    (hc : s.clock ≤ t.clock) (hcursor : settledTo d t.past = cursor)
    (ha : Allowed s.past ⟨n, .ended outcome, t.drains, t.source⟩) : Orderly origin t := by
  have hlt : d < s.drains.size := (Array.getElem?_eq_some_iff.mp hdrain).1
  have hf : Faithful origin (⟨n, .ended outcome, t.drains, t.source⟩ :: s.past) t.drains t.source := by
    refine ⟨fun d' => ?_, fun ring hring => hs ▸ h.faithful.source ring hring⟩
    by_cases hdd : d = d'
    · subst hdd
      refine (place_sequential_iff (by exact ho) hm).mpr (Or.inr ⟨own, ?_⟩)
      rw [← hp, hcursor, ht, State.setDrain, Array.getElem?_setIfInBounds_self_of_lt hlt]
    · have hne : drainOf n s.past ≠ some d' := by rw [hd]; exact fun heq => hdd (Option.some.inj heq)
      refine (Place.of_ne (fun _ _ => Event.noConfusion) hne).mpr ?_
      rw [ht, State.setDrain, Array.getElem?_setIfInBounds_ne hdd]
      exact h.faithful.place d'
  refine h.cons hp hn hc ha hf hf fun d' drain' hd' hm' m hdm => ?_
  rw [drainOf_of_drain? rfl] at hdm
  by_cases hdd : d = d'
  · subst hdd
    rcases hover m hdm with rfl | hover
    · exact ⟨outcome, by rw [deeds_self rfl]; exact List.mem_cons_self⟩
    · exact hover.cons
  · refine (h.free d' drain' ?_ hm' m hdm).cons
    rwa [State.drain?, ht, State.setDrain, Array.getElem?_setIfInBounds_ne hdd] at hd'

end Orderly

end PagedRing.Session
