import PagedRing.Proofs.Attending

/-!
# Sessions that leave a sink to transfers

Every step that leaves a sink to transfers tends it, transfers to the sink included; so the sink stands as its history
says when a session is over.

* `Beside.transfer`: a transfer, to the sink or to another one.
* `playStep_tends`: every step.
* `Session.tended`: whole sessions.
-/

namespace PagedRing.Session

variable {k n m : Nat} {s s₀ t : State} {player : Player} {f : Frame}

/-! ## Whole transfers -/

section

variable {left : Leftover} {place : ScratchPlace} {j d : Nat}

theorem State.lend_sinks (s : State) (place : ScratchPlace) :
    (s.lend place).2.sinks = s.sinks ∧ (s.lend place).2.script = s.script := by
  cases place <;> exact ⟨rfl, rfl⟩

theorem State.giveBack_sinks (s : State) (place : ScratchPlace) (scratch : Scratch) :
    (s.giveBack place scratch).sinks = s.sinks ∧ (s.giveBack place scratch).script = s.script := by
  cases place <;> exact ⟨rfl, rfl⟩

/-- A sink in its place may be replaced by one whose script leaves another sink alone. -/
theorem Beside.setSink (h : Beside k n s₀ s) (hj : j ≠ k) (sink : Option Sink)
    (hscript : ∀ s', sink = some s' → Script.Spares k s'.script) : Beside k n s₀ (s.setSink j sink) := by
  refine h.same rfl (Array.getElem?_setIfInBounds_ne hj) rfl h.tended.script fun i sink' hi => ?_
  by_cases hij : j = i
  · subst hij
    have hlt : j < s.sinks.size := by
      have := (Array.getElem?_eq_some_iff.mp hi).1
      rwa [State.setSink, Array.size_setIfInBounds] at this
    rw [State.setSink, Array.getElem?_setIfInBounds_self_of_lt hlt] at hi
    exact hscript sink' (Option.some.inj hi)
  · rw [State.setSink, Array.getElem?_setIfInBounds_ne hij] at hi
    exact h.tended.scripts i sink' hi

theorem Beside.lend (h : Beside k n s₀ s) (place : ScratchPlace) : Beside k n s₀ (s.lend place).2 := by
  obtain ⟨hp, -, -, hc⟩ := s.lend_same place
  obtain ⟨hs, hscript⟩ := s.lend_sinks place
  exact Beside.undisturbed.same h hp hs hc (hscript ▸ h.tended.script)

theorem Beside.giveBack (h : Beside k n s₀ s) (place : ScratchPlace) (scratch : Scratch) :
    Beside k n s₀ (s.giveBack place scratch) := by
  obtain ⟨hp, -, -, hc⟩ := s.giveBack_same place scratch
  obtain ⟨hs, hscript⟩ := s.giveBack_sinks place scratch
  exact Beside.undisturbed.same h hp hs hc (hscript ▸ h.tended.script)

/-- A transfer to another sink ends. -/
theorem Beside.close (h : Aware k (Beside k n s₀) left.frame) (hj : j ≠ k) (place : ScratchPlace) :
    Beside k n s₀ (left.close n j place) :=
  ((h.1.giveBack place left.scratch).setSink hj _ fun _ heq => Option.some.inj heq ▸ h.2).note _ nofun

/-- A transfer to the sink begins. -/
theorem Beside.began (h : Beside k n s₀ s) (hn : deeds n s.past = []) {sink : Sink}
    (hsink : s.sinks[k]? = some (some sink)) (hp : t.past = ⟨n, .began d k, s.drains, s.source⟩ :: s.past)
    (hs : t.sinks = (s.setSink k none).sinks) (hc : t.clock = s.clock) (hscript : t.script = s.script) :
    Attends k n s₀ (Standing k sink) t := by
  have hover := h.tended.finished sink hsink
  have hlt := (Array.getElem?_eq_some_iff.mp hsink).1
  have hout : t.sinks[k]? = some none := by
    rw [hs, State.setSink, Array.getElem?_setIfInBounds_self_of_lt hlt]
  have hvacant : s₀.sinks[k]? ≠ some none := fun hnone => by
    have := hsink.symm.trans (h.adds.shut hnone)
    cases this
  refine ⟨⟨?_, ?_, ?_, ?_, ?_, ?_⟩, ?_, hvacant, h.first, hc ▸ h.clock, hout, ?_, ?_, ?_⟩
  · rw [hp, hc]
    exact List.forall_mem_cons.mpr ⟨h.clock, h.tended.older⟩
  · rw [hscript]
    exact h.tended.script
  · intro i sink' hi
    by_cases hik : k = i
    · subst hik
      cases hout.symm.trans hi
    · rw [hs, State.setSink, Array.getElem?_setIfInBounds_ne hik] at hi
      exact h.tended.scripts i sink' hi
  · exact fun hnone => absurd (hout.symm.trans hnone) nofun
  · exact fun sink hsink => absurd (hout.symm.trans hsink) nofun
  · exact fun sink hsink => absurd (hout.symm.trans hsink) nofun
  · obtain ⟨hclock, ⟨new, hnew, hold⟩, hshut⟩ := h.adds
    refine ⟨hc ▸ hclock, ⟨_ :: new, by rw [hp, hnew]; rfl, List.forall_mem_cons.mpr ⟨⟨h.first, ?_⟩, hold⟩⟩, ?_⟩
    · exact fun hnone => absurd hnone hvacant
    · exact fun hnone => absurd hnone hvacant
  · rw [hp, sinkOf_began]
  · intro m hm
    rw [hp] at hm ⊢
    by_cases hnm : n = m
    · exact .inl hnm.symm
    · rw [sinkOf_of_ne hnm] at hm
      exact .inr (hover m hm).cons
  · rw [hp]
    exact (h.tended.standing sink hsink).began hn hover

/-- A transfer to the sink ends. -/
theorem Holds.close (h : Holds k n s₀ left.frame) :
    Tended k (left.close n k place) ∧ Adds k s₀ (left.close n k place) := by
  obtain ⟨hattends, hsinkscript⟩ := h
  obtain ⟨hp, -, -, hc⟩ := left.frame.state.giveBack_same place left.scratch
  obtain ⟨hs, hscript⟩ := left.frame.state.giveBack_sinks place left.scratch
  have hends : Attends k n s₀ (Standing k left.frame.sink)
      ((left.frame.state.giveBack place left.scratch).note n (.ended left.outcome)) :=
    (hattends.same hp hs hc (hscript ▸ hattends.tended.script)).note _ rfl fun hstanding => hstanding.of_untold rfl rfl
  have hpast : (left.close n k place).past =
      ((left.frame.state.giveBack place left.scratch).note n (.ended left.outcome)).past := by
    rw [Leftover.close, State.past_note, State.past_note]
    rfl
  have hplace : (left.close n k place).sinks[k]? = some (some left.frame.sink) := by
    show ((left.frame.state.giveBack place left.scratch).sinks.setIfInBounds k (some left.frame.sink))[k]? = _
    exact Array.getElem?_setIfInBounds_self_of_lt (Array.getElem?_eq_some_iff.mp hends.out).1
  refine ⟨⟨hpast ▸ hends.tended.older, hends.tended.script, ?_, ?_, ?_, ?_⟩,
    ⟨hends.adds.clock, hpast ▸ hends.adds.past, fun hnone => absurd hnone hends.vacant⟩⟩
  · intro i sink' hi
    by_cases hik : k = i
    · subst hik
      obtain rfl : left.frame.sink = sink' := Option.some.inj (Option.some.inj (hplace.symm.trans hi))
      exact hsinkscript
    · refine hends.tended.scripts i sink' ?_
      rw [← hi]
      exact (Array.getElem?_setIfInBounds_ne hik).symm
  · exact fun hnone => absurd (hplace.symm.trans hnone) nofun
  · intro sink' _ m hm
    rw [hpast] at hm ⊢
    rcases hends.sole m hm with rfl | hover
    · rw [State.past_note]
      exact ⟨left.outcome, by rw [deeds_self rfl]; exact List.mem_cons_self⟩
    · exact hover
  · intro sink' hi
    obtain rfl : left.frame.sink = sink' := Option.some.inj (Option.some.inj (hplace.symm.trans hi))
    rw [hpast]
    exact hends.known

end

/-! ## Every step -/

/-- A step begins with a number of its own. -/
theorem Tended.start (h : Tended k s) :
    Beside k s.clock s { s with clock := s.clock + 1 } ∧ deeds s.clock s.past = [] := by
  have hnone : deeds s.clock s.past = [] := deeds_eq_nil fun e he heq => by
    have := h.older e he
    omega
  refine ⟨⟨h.same rfl rfl (Nat.le_succ _) h.script h.scripts, (Adds.refl s).same rfl rfl (Nat.le_succ _), Nat.le_refl _,
    Nat.lt_succ_self _, ?_⟩, hnone⟩
  show sinkOf s.clock s.past ≠ some k
  rw [sinkOf, hnone]
  rintro ⟨⟩

/-- A transfer. -/
theorem Beside.transfer (hp : Tends k player) (h : Beside k n s₀ s) (hn : deeds n s.past = []) (budget d j : Nat)
    (name : Option Nat) :
    Tended k (Session.transfer player budget n d j name s).2 ∧
      Adds k s₀ (Session.transfer player budget n d j name s).2 := by
  unfold Session.transfer
  split
  · next drain sink hdrain hsink hscratch =>
    have hsink' : s.sinks[j]? = some (some sink) := Option.join_eq_some_iff.mp hsink
    dsimp only
    generalize drain.mode.scratchPlace name s = place
    by_cases hj : j = k
    · subst hj
      obtain ⟨hp₁, -, -, hc₁⟩ := ((s.note n (.began d j)).setSink j none).lend_same place
      obtain ⟨hs₁, hscript₁⟩ := ((s.note n (.began d j)).setSink j none).lend_sinks place
      generalize ((s.note n (.began d j)).setSink j none).lend place = lent at *
      have hholds : Holds j n s₀ (Frame.enter lent.2 sink) :=
        ⟨h.began hn hsink' (hp₁.trans (by rw [State.past_setSink, State.past_note])) hs₁ hc₁ hscript₁,
          h.tended.scripts j sink hsink'⟩
      have hend := leftover_keeps (Holds.keeps hp)
        (fun _ _ hf => ⟨hf.1.same rfl rfl rfl hf.1.tended.script, hf.2⟩) budget d drain lent.1 hholds
      exact Holds.close hend
    · have hlent : Beside k n s₀ (((s.note n (.began d j)).setSink j none).lend place).2 :=
        ((h.note (.began d j) fun heq => hj (Option.some.inj heq)).setSink hj none nofun).lend place
      generalize ((s.note n (.began d j)).setSink j none).lend place = lent at *
      have haware : Aware k (Beside k n s₀) (Frame.enter lent.2 sink) := ⟨hlent, h.tended.scripts j sink hsink'⟩
      have hend := leftover_keeps (Beside.keeps hp)
        (fun _ _ hf => ⟨Beside.undisturbed.same hf.1 rfl rfl rfl hf.1.tended.script, hf.2⟩) budget d drain lent.1 haware
      have hclosed := Beside.close hend hj place
      exact ⟨hclosed.tended, hclosed.adds⟩
  · exact ⟨h.tended, h.adds⟩

/-- A range that is delivered to another sink. -/
theorem Beside.deliver (hp : Tends k player) (h : Beside k n s₀ s) (start len : Nat) {j : Nat} (hj : j ≠ k)
    (name : Option Nat) (sizes : Option Sizes) :
    Beside k n s₀ (Session.deliver player n start len j name sizes s).2 := by
  unfold Session.deliver
  split
  · exact h
  · next g hg =>
    split
    · next sink hsink hscratch =>
      have haware : Aware k (Beside k n s₀) (Frame.enter ((s.setSink j none).lend (.ofName name)).2 sink) :=
        ⟨(h.setSink hj none nofun).lend _, h.tended.scripts j sink (Option.join_eq_some_iff.mp hsink)⟩
      have hend := (Beside.keeps hp).deliver g start len ((s.setSink j none).lend (.ofName name)).1 haware
      exact (hend.1.giveBack _ _).setSink hj _ fun _ heq => Option.some.inj heq ▸ hend.2
    · exact h

/-- A chunk that is handed to another sink. -/
theorem Beside.feed (hp : Tends k player) (h : Beside k n s₀ s) {j : Nat} (hj : j ≠ k) (bytes : Bytes) :
    Beside k n s₀ (Session.feed player n j bytes s).2 := by
  unfold Session.feed
  split
  · exact h
  · next sink hsink =>
    have haware : Aware k (Beside k n s₀) (Frame.enter (s.setSink j none) sink) :=
      ⟨h.setSink hj none nofun, h.tended.scripts j sink (Option.join_eq_some_iff.mp hsink)⟩
    have hend := Frame.accept_keeps (n := n) (fun item _ hf => Beside.undisturbed.offer hp item hf)
      (fun _ _ hf => ⟨hf.1.note _ nofun, hf.2⟩) (fun _ _ hf => hf) bytes haware
    exact hend.1.setSink hj _ fun _ heq => Option.some.inj heq ▸ hend.2

/-- The sink itself may lose its place, or get a limit. -/
theorem Beside.replace (h : Beside k n s₀ s) {old : Sink} (hold : s.sinks[k]? = some (some old)) (sink : Option Sink)
    (hsink : ∀ s', sink = some s' → Script.Spares k s'.script ∧ ¬ s'.Unlimited) : Beside k n s₀ (s.setSink k sink) := by
  have hplace : (s.setSink k sink).sinks[k]? = some sink := by
    rw [State.setSink, Array.getElem?_setIfInBounds_self_of_lt (Array.getElem?_eq_some_iff.mp hold).1]
  refine ⟨⟨h.tended.older, h.tended.script, fun i s' hi => ?_, fun hnone => absurd (hplace.symm.trans hnone) nofun,
    fun _ _ => h.tended.finished old hold, fun s' hs' framer hintake hlimit => ?_⟩,
    ⟨h.adds.clock, h.adds.past, fun hnone => ?_⟩, h.first, h.clock, h.other⟩
  · by_cases hik : k = i
    · subst hik
      exact (hsink s' (Option.some.inj (hplace.symm.trans hi))).1
    · rw [State.setSink, Array.getElem?_setIfInBounds_ne hik] at hi
      exact h.tended.scripts i s' hi
  · exact absurd ⟨framer, hintake, hlimit⟩ (hsink s' (Option.some.inj (hplace.symm.trans hs'))).2
  · cases hold.symm.trans (h.adds.shut hnone)

/-- A new sink. -/
theorem Beside.openSink (h : Beside k n s₀ s) (kind : SinkKind) {script : Script} (hscript : Script.Spares k script) :
    Beside k n s₀ (s.openSink kind script).2 := by
  have hnew : ∀ (i : Nat) sink, (s.openSink kind script).2.sinks[i]? = some (some sink) →
      s.sinks[i]? = some (some sink) ∨ s.sinks[i]? = none ∧ sink = .new kind script := by
    intro i sink hi
    rw [State.openSink, Array.getElem?_push] at hi
    split at hi
    · next heq =>
      exact .inr ⟨Array.getElem?_eq_none (Nat.le_of_eq heq.symm), (Option.some.inj (Option.some.inj hi)).symm⟩
    · exact .inl hi
  refine ⟨⟨h.tended.older, h.tended.script, fun i sink hi => ?_, fun hnone => ?_, fun sink hsink m hm => ?_,
    fun sink hsink => ?_⟩, ⟨h.adds.clock, h.adds.past, fun hnone => ?_⟩, h.first, h.clock, h.other⟩
  · rcases hnew i sink hi with hi | ⟨-, rfl⟩
    · exact h.tended.scripts i sink hi
    · cases kind <;> exact hscript
  · refine h.tended.unopened ?_
    rw [State.openSink, Array.getElem?_push] at hnone
    split at hnone
    · cases hnone
    · exact hnone
  · rcases hnew k sink hsink with hsink | ⟨hnone, -⟩
    · exact h.tended.finished sink hsink m hm
    · obtain ⟨e, he, -, hk⟩ := sink?_of_sinkOf hm
      exact absurd hk (h.tended.unopened hnone e he)
  · rcases hnew k sink hsink with hsink | ⟨hnone, rfl⟩
    · exact h.tended.standing sink hsink
    · exact .of_unused (h.tended.unopened hnone) kind script
  · have hshut := h.adds.shut hnone
    have hlt := (Array.getElem?_eq_some_iff.mp hshut).1
    rw [State.openSink, Array.getElem?_push_lt hlt, ← hshut, Array.getElem?_eq_getElem hlt]

/-- What neither sinks nor scripts nor the history speak of does not matter. -/
theorem Beside.rest (h : Beside k n s₀ s) (hp : t.past = s.past) (hs : t.sinks = s.sinks) (hc : t.clock = s.clock)
    (hscript : t.script = s.script) : Tended k t ∧ Adds k s₀ t :=
  have ht : Beside k n s₀ t := Beside.undisturbed.same h hp hs hc (hscript ▸ h.tended.script)
  ⟨ht.tended, ht.adds⟩

/-- A step without callbacks tends a sink, also if it takes it away or sets a limit. -/
theorem Beside.plainly (h : Beside k n s₀ s) {step : Step} (hspares : step.Spares k) (hp : Plainly n s step t) :
    Tended k t ∧ Adds k s₀ t := by
  cases hp with
  | kept | reset | closed | scratch => exact h.rest rfl rfl rfl rfl
  | @wrote bytes ring =>
    have hwritten : Beside k n s₀ { s with source := .ring (ring.write bytes) } :=
      Beside.undisturbed.same h rfl rfl rfl h.tended.script
    exact (hwritten.note (.wrote bytes) (by simp [Event.sink?])).rest rfl rfl rfl rfl
  | @opened _ _ _ drain =>
    have hopened : Beside k n s₀ { s with drains := s.drains.push (some drain) } :=
      Beside.undisturbed.same h rfl rfl rfl h.tended.script
    exact (hopened.note (.opened s.drains.size drain.cursor) (by simp [Event.sink?])).rest rfl rfl rfl rfl
  | sink kind script => exact (h.openSink kind hspares).rest rfl rfl rfl rfl
  | @limited sink limit framer script calls kept place =>
    have hplace : s.sinks[sink]? = some (some _) := Option.join_eq_some_iff.mp place
    have hscript : Script.Spares k script := h.tended.scripts sink _ hplace
    refine Beside.rest (n := n) (s := State.setSink _ sink _) ?_ rfl rfl rfl rfl
    by_cases hj : sink = k
    · subst hj
      refine h.replace hplace _ fun s' heq => ?_
      obtain rfl := Option.some.inj heq
      refine ⟨hscript, ?_⟩
      rintro ⟨_, hintake, hlimit⟩
      cases hintake
      cases hlimit
    · exact h.setSink hj _ fun s' heq => Option.some.inj heq ▸ hscript
  | @taken index sink place =>
    refine Beside.rest (n := n) (s := State.setSink _ index _) ?_ rfl rfl rfl rfl
    by_cases hj : index = k
    · subst hj
      exact h.replace (Option.join_eq_some_iff.mp place) none (by rintro s' ⟨⟩)
    · exact h.setSink hj none (by rintro s' ⟨⟩)

/-- A step tends a sink if the steps of its callbacks do. -/
theorem playStep_tends (hp : Tends k player) (budget : Nat) : Tends k (playStep player budget) := by
  intro step s hspares hs
  obtain ⟨hstart, hnew⟩ := hs.start
  cases hcalls : step.calls with
  | false => exact hstart.plainly hspares (playStep_plainly player budget hcalls s)
  | true =>
    unfold playStep
    cases step with
    | transfer drain sink scratch => exact hstart.transfer hp hnew budget drain sink scratch
    | deliver start len sink scratch sizes =>
      exact (hstart.deliver hp start len hspares scratch sizes).rest rfl rfl rfl rfl
    | feed sink bytes => exact (hstart.feed hp hspares bytes).rest rfl rfl rfl rfl
    | _ => cases hcalls

/-- Every step that leaves a sink to transfers tends it. -/
theorem play_tends (budget : Nat) : Tends k (play budget) := by
  induction budget with
  | zero => exact fun step s _ hs => ⟨hs, .refl s⟩
  | succ budget ih => exact playStep_tends ih (budget + 1)

/-- Steps that are played one after the other. -/
theorem playAll_tends (budget : Nat) (steps : List Step) (hspares : ∀ step ∈ steps, step.Spares k) (hs : Tended k s) :
    Tended k (playAll budget steps s).2 :=
  playAll_keeps (fun step hmem t ht => (play_tends budget step t (hspares step hmem) ht).1) hs

/-- Whether a session leaves a sink to transfers. -/
def Spares (session : Session) (k : Nat) : Prop :=
  Script.Spares k session.script ∧ ∀ step ∈ session.steps, step.Spares k

/-- A sink that a session leaves to transfers is tended to the end. -/
theorem tended {session : Session} (h : session.Spares k) : Tended k session.run.2 := by
  refine playAll_tends _ _ h.2 ⟨nofun, h.1, fun j sink hj => ?_, fun _ => nofun, fun sink hsink => ?_,
    fun sink hsink => ?_⟩
  all_goals simp [State.initial] at *

end PagedRing.Session
