import PagedRing.Proofs.Steps
import PagedRing.Proofs.Transfers

/-!
# Every session is lawful

A step that is played on an orderly state leaves an orderly state, whatever its callbacks play. So the history of every
session is lawful, and the session ends as its history says, with no transfer unfinished.

* `playStep_sound`: one step, if the steps of its callbacks are played soundly.
* `play_sound`: one step with any budget.
* `Session.orderly`, `Session.lawful`: every session.
-/

namespace PagedRing

namespace Session

variable {origin : Source} {player : Player} {s₀ s t : State} {n d : Nat}

/-! ## Steps with callbacks -/

@[simp] theorem State.past_setSink (s : State) (k : Nat) (sink : Option Sink) : (s.setSink k sink).past = s.past := rfl

@[simp] theorem State.past_setDrain (s : State) (d : Nat) (drain : Option Drain) :
    (s.setDrain d drain).past = s.past := rfl

/-- Scratches come and go without a trace. -/
theorem State.lend_same (s : State) (place : ScratchPlace) : (s.lend place).2.past = s.past ∧
    (s.lend place).2.drains = s.drains ∧ (s.lend place).2.source = s.source ∧ (s.lend place).2.clock = s.clock := by
  cases place <;> exact ⟨rfl, rfl, rfl, rfl⟩

theorem State.giveBack_same (s : State) (place : ScratchPlace) (scratch : Scratch) :
    (s.giveBack place scratch).past = s.past ∧ (s.giveBack place scratch).drains = s.drains ∧
      (s.giveBack place scratch).source = s.source ∧ (s.giveBack place scratch).clock = s.clock := by
  cases place <;> exact ⟨rfl, rfl, rfl, rfl⟩

/-- A step starts as a bystander that has done nothing. -/
theorem Orderly.start (h : Orderly origin s₀) :
    Bystander origin s₀ s₀.clock { s₀ with clock := s₀.clock + 1 } ∧ deeds s₀.clock s₀.past = [] := by
  have hnone : ∀ m, s₀.clock ≤ m → deeds m s₀.past = [] := fun m hm =>
    deeds_eq_nil fun e he heq => by have := h.older e he; omega
  refine ⟨⟨⟨h.same rfl rfl rfl (Nat.le_succ _), ⟨Nat.le_succ _, ⟨[], rfl, nofun⟩, fun _ hd => hd⟩, ?_, Nat.le_refl _,
    Nat.lt_succ_self _⟩, ?_⟩, hnone _ (Nat.le_refl _)⟩
  · intro m hm hd
    refine absurd ?_ hd
    show drainOf m s₀.past = none
    rw [drainOf, hnone m (by omega)]
    rfl
  · show drainOf s₀.clock s₀.past = none
    rw [drainOf, hnone _ (Nat.le_refl _)]
    rfl

/-- A bystander that ends leaves all in order, whatever it does to sinks and scratches. -/
theorem Bystander.leaves (h : Bystander origin s₀ n s) (hn : n = s₀.clock) (hp : t.past = s.past)
    (hd : t.drains = s.drains) (hs : t.source = s.source) (hc : t.clock = s.clock) : Leaves origin s₀ t := by
  have ht : Bystander origin s₀ n t := steady.same h hp hd hs hc
  exact ht.finish hn (Or.inl ht.drainOf)

/-- A chunk that is handed over directly. -/
theorem Bystander.feed (hp : Sound origin player) (h : Bystander origin s₀ n s) (sink : Nat) (bytes : Bytes) :
    Bystander origin s₀ n (feed player n sink bytes s).2 := by
  unfold Session.feed
  split
  · exact h
  · next sink' hsink =>
    have := steady.accept hp bytes (f := Frame.enter (s.setSink sink none) sink') (steady.same h rfl rfl rfl rfl)
    exact steady.same this rfl rfl rfl rfl

/-- A range that is delivered without a drain. -/
theorem Bystander.delivered (hp : Sound origin player) (h : Bystander origin s₀ n s) (start len sink : Nat)
    (name : Option Nat) (sizes : Option Sizes) :
    Bystander origin s₀ n (Session.deliver player n start len sink name sizes s).2 := by
  unfold Session.deliver
  split
  · exact h
  · next g hg =>
    split
    · next sink' hsink hscratch =>
      obtain ⟨hpast, hdrains, hsource, hclock⟩ := (s.setSink sink none).lend_same (.ofName name)
      have hlent : Bystander origin s₀ n ((s.setSink sink none).lend (.ofName name)).2 :=
        steady.same h hpast hdrains hsource hclock
      have hend := hlent.deliver (f := Frame.enter _ sink') hp g start len ((s.setSink sink none).lend (.ofName name)).1
      dsimp only
      generalize (host player n).deliver g start len _ _ = delivery at *
      obtain ⟨outcome, scratch, f⟩ := delivery
      obtain ⟨hpast, hdrains, hsource, hclock⟩ := f.state.giveBack_same (.ofName name) scratch
      exact steady.same hend hpast hdrains hsource hclock
    · exact h

/-- The state after a transfer: its scratch and its sink are back in their places. -/
def Leftover.close (left : Leftover) (n sink : Nat) (place : ScratchPlace) : State :=
  ((left.frame.state.giveBack place left.scratch).setSink sink (some left.frame.sink)).note n (.ended left.outcome)

/-- A transfer of a shared drain, from its first event to its last. -/
theorem transferConcurrent_leaves (hp : Sound origin player) {drain first : Drain} {f : Frame} {k : Nat}
    (h : Running origin s₀ n d first [.began d k] f.state) (hn : n = s₀.clock) (hg : drain.geometry = first.geometry)
    (hm : first.mode = .concurrent) (budget sink : Nat) (place : ScratchPlace) (scratch : Scratch) :
    Leaves origin s₀ ((transferConcurrent player budget n d drain scratch f).close n sink place) := by
  obtain ⟨⟨ds, hrun⟩, hout⟩ := h.transferConcurrent hp hm budget scratch
  unfold Session.transferConcurrent Leftover.close
  rw [hg]
  generalize Concurrent.transfer (host player n) (cursorCell d) first.geometry budget scratch f = result at *
  obtain ⟨outcome, scratch', f'⟩ := result
  obtain ⟨hpast, hdrains, hsource, hclock⟩ := f'.state.giveBack_same place scratch'
  have hrun' : Running origin s₀ n d first ds ((f'.state.giveBack place scratch').setSink sink (some f'.sink)) :=
    Running.steady.same hrun hpast hdrains hsource hclock
  refine hrun'.ended_concurrent hn hm ?_
  rw [State.past_setSink, hpast]
  show Concludes n d first f'.state.past (f'.state.giveBack place scratch').source outcome
  rw [hsource]
  exact hout

/-- A transfer of a drain that is not shared, from its first event to its last. -/
theorem transferSequential_leaves (hp : Sound origin player) {drain first : Drain} {f : Frame} {k : Nat}
    (h : Running origin s₀ n d first [.began d k] (f.state.setDrain d none)) (hn : n = s₀.clock)
    (hg : drain.geometry = first.geometry) (hm : first.mode ≠ .concurrent)
    (hcursor : drain.cursor = settledTo d s₀.past) (own : Scratch) (sink : Nat) (place : ScratchPlace)
    (scratch : Scratch) :
    Leaves origin s₀ ((transferSequential player n d drain own scratch f).close n sink place) := by
  obtain ⟨⟨⟨ds, hrun⟩, hout⟩, hmoved⟩ :=
    h.transferSequential (f := { f with state := f.state.setDrain d none }) hp hm hcursor own
  unfold Session.transferSequential Leftover.close
  dsimp only
  rw [hg]
  generalize Sequential.transfer (host player n) first.geometry drain.cursor own _ = result at *
  obtain ⟨outcome, cursor, own', f'⟩ := result
  dsimp only at hmoved hrun hout ⊢
  obtain ⟨hpast, hdrains, hsource, hclock⟩ :=
    (f'.state.setDrain d (some ⟨first.geometry, cursor, .sequential own'⟩)).giveBack_same place scratch
  refine hrun.ended_sequential hn hm own' cursor ?_ ?_ hdrains hsource hclock hout
  · rw [hmoved, hcursor]
  · rw [State.past_note, State.past_setSink, hpast]
    rfl

/-- A transfer that may be refused. -/
theorem transfer_leaves (hp : Sound origin player) (h : Bystander origin s₀ n s) (hn : n = s₀.clock)
    (hnew : deeds n s.past = []) (hdrains : s.drains = s₀.drains) (hpast : s.past = s₀.past)
    (budget index sinkIndex : Nat) (name : Option Nat) :
    Leaves origin s₀ (transfer player budget n index sinkIndex name s).2 := by
  unfold transfer
  split
  · next drain sink hdrain hsink hscratch =>
    obtain ⟨first, ho, hg, hmode⟩ := h.orderly.opened_of_drain? hdrain
    have hreach : ∀ d' : Nat, s₀.drains[d']? = some none → d' ≠ index := by
      rintro d' hd' rfl
      rw [← hdrains] at hd'
      rw [State.drain?, hd'] at hdrain
      cases hdrain
    dsimp only
    generalize drain.mode.scratchPlace name s = place
    obtain ⟨hp₁, hd₁, hs₁, hc₁⟩ := ((s.note n (.began index sinkIndex)).setSink sinkIndex none).lend_same place
    generalize ((s.note n (.began index sinkIndex)).setSink sinkIndex none).lend place = lent at *
    obtain ⟨scratch, s₁⟩ := lent
    cases hm : drain.mode with
    | concurrent =>
      rcases hmode with ⟨-, hfirst, -⟩ | ⟨hm', -, -⟩
      · have hbegan : Running origin s₀ n index first [.began index sinkIndex] s₁ :=
          Running.steady.same (h.began_concurrent hnew hdrain hm hreach ho hfirst) hp₁ hd₁ hs₁ hc₁
        exact transferConcurrent_leaves hp (f := Frame.enter s₁ sink) hbegan hn hg hfirst budget sinkIndex place scratch
      · exact absurd hm hm'
    | sequential own =>
      rcases hmode with ⟨hm', -, -⟩ | ⟨hm', hfirst, hcursor⟩
      · rw [hm] at hm'
        cases hm'
      · have hbegan : Running origin s₀ n index first [.began index sinkIndex] (s₁.setDrain index none) := by
          refine h.began_sequential hnew hdrain hm' hreach ho (by rw [hpast]) ?_ ?_ hs₁ hc₁
          · rw [State.past_setDrain, hp₁, State.past_setSink, State.past_note]
          · show s₁.drains.setIfInBounds index none = s.drains.setIfInBounds index none
            rw [hd₁]
            rfl
        exact transferSequential_leaves hp (f := Frame.enter s₁ sink) hbegan hn hg hfirst (by rw [hcursor, hpast]) own
          sinkIndex place scratch
  · exact h.leaves hn rfl rfl rfl rfl

/-! ## Steps without callbacks -/

/-- A write. -/
theorem Bystander.write (h : Bystander origin s₀ n s) (hn : n = s₀.clock) (bytes : Bytes) {ring : Ring}
    (hring : s.source = .ring ring) :
    Leaves origin s₀ (State.note { s with source := .ring (ring.write bytes) } n (.wrote bytes)) := by
  refine Underway.finish (h.toUnderway.cons (h.orderly.wrote h.clock h.drainOf hring bytes) (State.past_note _ n _)
    rfl h.since.shut fun _ _ hd => by cases hd) hn (Or.inl ?_)
  rw [State.past_note, drainOf_of_drain? rfl]
  exact h.drainOf

/-- A drain that is opened. -/
theorem Bystander.openDrain (h : Bystander origin s₀ n s) (hn : n = s₀.clock) {drain : Drain}
    (hlt : drain.cursor < drain.geometry.capacity) :
    Leaves origin s₀
      (State.note { s with drains := s.drains.push (some drain) } n (.opened s.drains.size drain.cursor)) := by
  refine Underway.finish (h.toUnderway.cons (h.orderly.opened h.clock h.drainOf hlt) (State.past_note _ n _) rfl
    ?_ fun _ _ hd => by cases hd) hn (Or.inl ?_)
  · intro d hd
    have := h.since.shut d hd
    have hlt : d < s.drains.size := (Array.getElem?_eq_some_iff.mp this).1
    show (s.drains.push (some drain))[d]? = some none
    rw [Array.getElem?_push_lt hlt, ← this, Array.getElem?_eq_getElem hlt]
  · rw [State.past_note, drainOf_of_drain? rfl]
    exact h.drainOf

/-- A drain that is given up. -/
theorem Bystander.closeDrain (h : Bystander origin s₀ n s) (hn : n = s₀.clock) {d : Nat} {drain : Drain}
    (hd : s.drain? d = some drain) (hm : drain.mode ≠ .concurrent) : Leaves origin s₀ (s.setDrain d none) := by
  have htaken := h.orderly.taken hd hm
  refine ⟨htaken, ⟨h.since.clock, h.since.past, fun d' hd' => ?_⟩, (h.leaves hn rfl rfl rfl rfl).2.2⟩
  have := h.since.shut d' hd'
  show (s.drains.setIfInBounds d none)[d']? = some none
  by_cases hdd : d = d'
  · subst hdd
    rw [Array.getElem?_setIfInBounds_self_of_lt (Array.getElem?_eq_some_iff.mp this).1]
  · rw [Array.getElem?_setIfInBounds_ne hdd]
    exact this

/-- A source that is no ring may be set. -/
theorem Bystander.reset (h : Bystander origin s₀ n s) (hn : n = s₀.clock) {pages : Array Bytes} {position : Nat}
    (hs : s.source = .table pages position) (source : Source) : Leaves origin s₀ { s with source } :=
  ⟨h.orderly.reset hs source, ⟨h.since.clock, h.since.past, h.since.shut⟩, (h.leaves hn rfl rfl rfl rfl).2.2⟩

/-- Whatever a step without callbacks does. -/
theorem Bystander.plainly (h : Bystander origin s₀ n s) (hn : n = s₀.clock) {step : Step} (hp : Plainly n s step t) :
    Leaves origin s₀ t := by
  cases hp with
  | wrote hsource => exact h.write hn _ hsource
  | reset hsource source => exact h.reset hn hsource source
  | opened hlt => exact h.openDrain hn hlt
  | closed hplace hmode => exact h.closeDrain hn hplace hmode
  | kept | scratch | sink | limited | taken => exact h.leaves hn rfl rfl rfl rfl

/-! ## Every step -/

/-- A step is played soundly if the steps of its callbacks are. -/
theorem playStep_sound (hp : Sound origin player) (budget : Nat) : Sound origin (playStep player budget) := by
  intro step s hs
  obtain ⟨hstart, hnew⟩ := hs.start
  cases hcalls : step.calls with
  | false => exact hstart.plainly rfl (playStep_plainly player budget hcalls s)
  | true =>
    unfold playStep
    cases step with
    | transfer drain sink scratch => exact transfer_leaves hp hstart rfl hnew rfl rfl budget drain sink scratch
    | deliver start len sink scratch sizes =>
      exact (hstart.delivered hp start len sink scratch sizes).leaves rfl rfl rfl rfl rfl
    | feed sink bytes => exact (hstart.feed hp sink bytes).leaves rfl rfl rfl rfl rfl
    | _ => cases hcalls

/-- Every step is played soundly. -/
theorem play_sound (budget : Nat) : Sound origin (play budget) := by
  induction budget with
  | zero =>
    intro step s hs
    exact .refl hs
  | succ budget ih => exact playStep_sound ih (budget + 1)

/-- Steps that are played one after the other. -/
theorem playAll_sound (budget : Nat) (steps : List Step) (hs : Orderly origin s) :
    Leaves origin s (playAll budget steps s).2 :=
  playAll_keeps (fun step _ t ht => ht.trans (play_sound budget step t ht.1)) (.refl hs)

/-! ## Whole sessions -/

/-- What happened in a session, the latest entry first. -/
def past (session : Session) : List Entry := session.run.2.past

variable (session : Session)

/-- Before its first step, nothing has happened in a session. -/
theorem orderly_initial (g : Geometry) (source : Source) (script : Script) :
    Orderly source (.initial g source script) := by
  refine ⟨trivial, ⟨fun d => ?_, fun ring hring => ?_⟩, nofun, fun d drain hd => ?_⟩
  · show Place d [] (#[] : Array (Option Drain))[d]?
    rw [Array.getElem?_empty]
    rfl
  · exact hring
  · simp [State.drain?, State.initial] at hd

/-- A session ends as its history says. -/
theorem orderly : Orderly session.source session.run.2 :=
  (playAll_sound (session.cues + 1) session.steps (orderly_initial _ _ _)).1

/-- The history of every session is lawful. -/
theorem lawful : Lawful session.source session.past := session.orderly.lawful

/-- No transfer is left unfinished. -/
theorem finished {n d : Nat} (h : drainOf n session.past = some d) : Over n session.past :=
  (playAll_sound (session.cues + 1) session.steps (orderly_initial _ _ _)).2.2 n (Nat.zero_le n)
    (by rw [show (State.past (playAll _ _ _).2) = session.past from rfl, h]; exact nofun)

end Session

end PagedRing
