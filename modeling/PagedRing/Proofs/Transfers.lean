import PagedRing.Proofs.Conduct

/-!
# What transfers do

A transfer of a shared drain claims what is unread and delivers it; one of any other drain delivers what is unread and
then moves the cursor. Either way it does what its history says, and it ends with an outcome that means what it says.

* `Running.claim`: a claim is won, or there was nothing to claim.
* `Running.transferConcurrent`, `Running.transferSequential`: transfers between their first and their last event.
* `Bystander.transfer`: whole transfers.
-/

namespace PagedRing.Session

variable {origin : Source} {player : Player} {s₀ : State} {n d : Nat} {drain : Drain} {ds : List Event} {f : Frame}

/-! ## Claims -/

/-- What a transfer knows when it stops trying to claim. -/
def Claims (origin : Source) (s₀ : State) (n d : Nat) (drain : Drain) (f : Frame) :
    Except Halt Concurrent.Claim → Prop
  | .error halt => Running.Ends origin s₀ n d drain (.error halt) f
  | .ok (.idle position) =>
    (∃ ds, Running origin s₀ n d drain ds f.state) ∧ Latest n (.sampled position) f.state.past ∧
      position < drain.geometry.capacity ∧ loaded? (deeds n f.state.past) = some position
  | .ok (.won start stop) =>
    ∃ retries ds, Running origin s₀ n d drain (.claimed start stop retries :: ds) f.state ∧
      Latest n (.claimed start stop retries) f.state.past ∧ start < drain.geometry.capacity ∧
      stop < drain.geometry.capacity ∧ start ≠ stop

namespace Running

/-- The cursor of a shared drain is where its last claim ended. -/
theorem load (h : Running origin s₀ n d drain ds f.state) (hm : drain.mode = .concurrent) :
    (cursorCell d).load f = claimedTo d f.state.past := by
  have := h.orderly.place_concurrent h.opened hm
  simp only [cursorCell, State.drain?, this, Option.join_some, Option.map_some, Option.getD_some]

/-- A transfer tries until a claim is won, or until there is nothing to claim. -/
theorem claim (hp : Sound origin player) (hm : drain.mode = .concurrent) (attempts retries : Nat) {ev : Event}
    (h : Running origin s₀ n d drain (ev :: ds) f.state) (hev : ev.rests = true) (hr : losses (ev :: ds) = retries)
    (hfew : retries < countBound) :
    Claims origin s₀ n d drain (Concurrent.claim (host player n) (cursorCell d) drain.geometry attempts retries f).2
      (Concurrent.claim (host player n) (cursorCell d) drain.geometry attempts retries f).1 := by
  induction attempts generalizing retries ev ds f with
  | zero =>
    refine ⟨⟨_, h⟩, hm, ?_⟩
    show ∀ ev ∈ Session.deeds n f.state.past, ev.attempt = true
    rw [h.deeds]
    exact h.course.trying rfl (Event.attempt_of_rests hev)
  | succ attempts ih =>
    have hstart := h.load hm
    have hlt := h.orderly.lawful.claimedTo_lt h.opened
    have hloaded : Running origin s₀ n d drain (.loaded (claimedTo d f.state.past) :: ev :: ds)
        (f.note n (.loaded (claimedTo d f.state.past))).state :=
      h.note rfl (.loaded _ h.course hev) ⟨hm, rfl⟩
    obtain ⟨position, hsampled, hresult⟩ := hloaded.readPosition hp rfl drain.geometry
    obtain ⟨⟨es, hes, hrun⟩, hlatest⟩ := hsampled
    have hload : loaded? es = some (claimedTo d f.state.past) := by rcases hes with rfl | ⟨cues, rfl⟩ <;> rfl
    have hloss : losses es = retries := by rcases hes with rfl | ⟨cues, rfl⟩ <;> exact hr
    have hnote : (host player n).note (.loaded (claimedTo d f.state.past)) f =
        f.note n (.loaded (claimedTo d f.state.past)) := rfl
    unfold Concurrent.claim
    simp only [hstart, hnote]
    generalize (host player n).readPosition drain.geometry (f.note n (.loaded (claimedTo d f.state.past))) = read at *
    obtain ⟨result, f'⟩ := read
    dsimp only at hresult hrun hlatest
    subst hresult
    by_cases hcontains : drain.geometry.contains position = true
    · simp only [hcontains, ↓reduceIte]
      have hposition := drain.geometry.contains_iff.mp hcontains
      split
      · next hunread =>
        have hne : claimedTo d f.state.past ≠ position := by simpa [hasUnread] using hunread
        have hseen := hrun.load hm
        split
        · next heq =>
          -- nobody has moved the cursor since it was read
          have hcursor : claimedTo d f.state.past = claimedTo d f'.state.past := heq.symm.trans hseen
          refine ⟨retries, _, hrun.claimed hm (State.past_note _ n _) rfl rfl rfl ?_ ?_, ?_, hlt, hposition, hne⟩
          · rw [← hloss]; exact .claimed hrun.course hload
          · exact ⟨hm, hcursor, hlatest, hne, hposition⟩
          · show Latest n _ (State.past (State.note _ n _))
            rw [State.past_note]
            exact .cons
        · next hmoved =>
          have hbeaten : Beaten n d drain (claimedTo d f.state.past) f'.state.past := by
            refine ⟨hm, ?_, hseen ▸ hmoved, position, hlatest, Ne.symm hne, hposition⟩
            rw [hrun.deeds]
            exact hload
          cases hcount : Count.next retries with
          | error fault =>
            obtain ⟨hlast, rfl⟩ := Count.next_eq_error_iff.mp hcount
            refine ⟨⟨_, hrun⟩, .inr ⟨rfl, ?_, _, hbeaten⟩⟩
            rw [hrun.deeds]
            exact Nat.le_antisymm (hloss ▸ hfew) (hloss ▸ hlast)
          | ok following =>
            obtain ⟨hfew, rfl⟩ := Count.next_eq_ok_iff.mp hcount
            have hlost : Course (.lost (claimedTo d f.state.past) ((cursorCell d).load f') (retries + 1) ::
                .sampled position :: es) := by
              rw [← hloss]; exact .lost _ hrun.course hload
            have hnext := hrun.note rfl hlost ⟨hseen, hfew, hbeaten⟩
            exact ih (retries + 1) hnext rfl (congrArg (· + 1) hloss) hfew
      · next hunread =>
        have heq : claimedTo d f.state.past = position := by simpa [hasUnread] using hunread
        refine ⟨⟨_, hrun⟩, hlatest, hposition, ?_⟩
        rw [hrun.deeds, ← heq]
        exact hload
    · simp only [hcontains, Bool.false_eq_true, ↓reduceIte]
      refine ⟨⟨_, hrun⟩, rfl, hlatest, Nat.le_of_not_lt fun hlt => hcontains ?_⟩
      exact drain.geometry.contains_iff.mpr hlt

/-! ## Between the first and the last event -/

/-- A transfer of a shared drain delivers what it claimed. -/
theorem transferConcurrent (hp : Sound origin player) (hm : drain.mode = .concurrent) (attempts : Nat) {k : Nat}
    (h : Running origin s₀ n d drain [.began d k] f.state) (scratch : Scratch) :
    Ends origin s₀ n d drain
      (Concurrent.transfer (host player n) (cursorCell d) drain.geometry attempts scratch f).1
      (Concurrent.transfer (host player n) (cursorCell d) drain.geometry attempts scratch f).2.2 := by
  have hclaim := h.claim hp hm attempts 0 rfl rfl (by decide)
  unfold Concurrent.transfer
  generalize Concurrent.claim (host player n) (cursorCell d) drain.geometry attempts 0 f = result at *
  obtain ⟨result, f'⟩ := result
  match result with
  | .error halt => exact hclaim
  | .ok (.idle position) =>
    obtain ⟨⟨ds, hrun⟩, hlatest, hlt, hload⟩ := hclaim
    refine ⟨⟨ds, hrun⟩, Or.inl ⟨position, rfl, hlatest, hlt, ?_⟩⟩
    rw [base?, hm]
    exact hload
  | .ok (.won start stop) =>
    obtain ⟨retries, ds, hrun, hlatest, hstart, hstop, hne⟩ := hclaim
    have hlen : drain.geometry.unreadLen start stop = .ok _ := drain.geometry.unreadLen_of_le (Nat.le_of_lt hstart)
    simp only [hlen]
    refine (hrun.deliver hp rfl hstart hstop hlen ⟨rfl, stop, hlen, ?_⟩ scratch).1
    rw [hm]
    exact ⟨retries, hlatest⟩

/-- The cursor of a drain that is not shared, after a transfer from it: only a success moves it. -/
def cursorAfter (cursor : Nat) : Except Halt Transfer → Nat
  | .ok report => report.stop
  | .error _ => cursor

/-- A transfer of a drain that is not shared delivers what is unread, and if that succeeds, the cursor moves. -/
theorem transferSequential (hp : Sound origin player) (hm : drain.mode ≠ .concurrent) {k : Nat}
    (h : Running origin s₀ n d drain [.began d k] f.state) {cursor : Nat} (hc : cursor = settledTo d s₀.past)
    (own : Scratch) :
    Ends origin s₀ n d drain (Sequential.transfer (host player n) drain.geometry cursor own f).1
        (Sequential.transfer (host player n) drain.geometry cursor own f).2.2.2 ∧
      (Sequential.transfer (host player n) drain.geometry cursor own f).2.1 =
        cursorAfter cursor (Sequential.transfer (host player n) drain.geometry cursor own f).1 := by
  obtain ⟨position, ⟨⟨es, hes, hrun⟩, hlatest⟩, hresult⟩ := h.readPosition hp rfl drain.geometry
  unfold Sequential.transfer
  generalize (host player n).readPosition drain.geometry f = read at *
  obtain ⟨result, f'⟩ := read
  dsimp only at hresult hrun hlatest
  subst hresult
  obtain ⟨-, hset, -⟩ := hrun.own hm
  have hcursor : cursor = settledTo d f'.state.past := hc.trans hset.symm
  have hstart : cursor < drain.geometry.capacity := hcursor ▸ hrun.orderly.lawful.settledTo_lt hrun.opened
  by_cases hcontains : drain.geometry.contains position = true
  · simp only [hcontains, ↓reduceIte]
    have hposition := drain.geometry.contains_iff.mp hcontains
    split
    · next hunread =>
      have hne : cursor ≠ position := by simpa [hasUnread] using hunread
      have hlen : drain.geometry.unreadLen cursor position = .ok _ :=
        drain.geometry.unreadLen_of_le (Nat.le_of_lt hstart)
      simp only [hlen]
      have hends := hrun.deliver hp rfl hstart hposition hlen ⟨rfl, position, hlen, ?_⟩ own
      · generalize (host player n).deliver drain.geometry cursor _ own f' = delivery at *
        obtain ⟨outcome, own', f''⟩ := delivery
        cases outcome with
        | ok report => exact ⟨hends.1, (hends.2 report rfl).symm⟩
        | error halt => exact ⟨hends.1, rfl⟩
      · cases hmode : drain.mode with
        | concurrent => exact absurd hmode hm
        | sequential scratch => exact ⟨hcursor, hlatest, hne, hposition⟩
    · next hunread =>
      have heq : cursor = position := by simpa [hasUnread] using hunread
      refine ⟨⟨⟨_, hrun⟩, Or.inl ⟨position, rfl, hlatest, hposition, ?_⟩⟩, heq⟩
      cases hmode : drain.mode with
      | concurrent => exact absurd hmode hm
      | sequential scratch =>
        rw [base?, hmode]
        exact congrArg some (hcursor.symm.trans heq)
  · simp only [hcontains, Bool.false_eq_true, ↓reduceIte]
    refine ⟨⟨⟨_, hrun⟩, rfl, hlatest, Nat.le_of_not_lt fun hlt => hcontains ?_⟩, rfl⟩
    exact drain.geometry.contains_iff.mpr hlt

end Running

/-! ## Whole transfers -/

variable {s t : State} {k : Nat} {outcome : Except Halt Transfer}

/-- A transfer of a shared drain begins. -/
theorem Underway.began_concurrent (h : Underway origin s₀ n s) (hnew : deeds n s.past = [])
    (hd : s.drain? d = some drain) (hm : drain.mode = .concurrent)
    (hreach : ∀ d' : Nat, s₀.drains[d']? = some none → d' ≠ d) {first : Drain} (ho : opened? d s.past = some first)
    (hfirst : first.mode = .concurrent) :
    Running origin s₀ n d first [.began d k] (s.note n (.began d k)) := by
  have hend := h.cons (h.orderly.began_concurrent h.clock hnew hd hm k) (State.past_note s n _) rfl h.since.shut
    fun d' hd' heq => hreach d' hd' (Option.some.inj heq).symm
  refine ⟨hend, ?_, ?_, ?_, fun _ => by simp, hreach, fun hm' => absurd hfirst hm'⟩
  · rw [State.past_note, drainOf_began]
  · rw [State.past_note, opened?_quiet rfl]; exact ho
  · rw [State.past_note, deeds_self rfl, hnew]

/-- A transfer of a drain that is not shared begins. -/
theorem Underway.began_sequential (h : Underway origin s₀ n s) (hnew : deeds n s.past = [])
    (hd : s.drain? d = some drain) (hm : drain.mode ≠ .concurrent)
    (hreach : ∀ d' : Nat, s₀.drains[d']? = some none → d' ≠ d) {first : Drain} (ho : opened? d s.past = some first)
    (hset : settledTo d s.past = settledTo d s₀.past) (hp : t.past = ⟨n, .began d k, s.drains, s.source⟩ :: s.past)
    (ht : t.drains = (s.setDrain d none).drains) (hs : t.source = s.source) (hc : t.clock = s.clock) :
    Running origin s₀ n d first [.began d k] t := by
  have hlt : d < s.drains.size := (Array.getElem?_eq_some_iff.mp (Option.join_eq_some_iff.mp hd)).1
  have hempty : t.drains[d]? = some none := by
    rw [ht, State.setDrain, Array.getElem?_setIfInBounds_self_of_lt hlt]
  have hord := h.orderly.began_sequential h.clock hnew hd hm hp ht hs (Nat.le_of_eq hc.symm)
  refine ⟨h.cons hord hp hc ?_ fun d' hd' heq => hreach d' hd' (Option.some.inj heq).symm, ?_, ?_, ?_,
    fun _ => by simp, hreach, fun _ => ⟨hempty, ?_, ?_⟩⟩
  · intro d' hd'
    rw [ht, State.setDrain, Array.getElem?_setIfInBounds_ne (Ne.symm (hreach d' hd'))]
    exact h.since.shut d' hd'
  · rw [hp, drainOf_began]
  · rw [hp, opened?_quiet rfl]; exact ho
  · rw [hp, deeds_self rfl, hnew]
  · rw [hp, settledTo_quiet rfl]; exact hset
  · intro m hdm
    rw [hp] at hdm ⊢
    by_cases hmn : n = m
    · exact Or.inl hmn.symm
    · rw [drainOf_of_ne hmn] at hdm
      exact Or.inr (h.orderly.free d drain hd hm m hdm).cons

/-- A step that is over leaves all transfers over that it may have begun. -/
theorem Underway.finish (h : Underway origin s₀ n s) (hn : n = s₀.clock)
    (ho : drainOf n s.past = none ∨ Over n s.past) : Leaves origin s₀ s := by
  refine ⟨h.orderly, h.since, fun m hm hd => ?_⟩
  rcases Nat.lt_or_eq_of_le hm with hlt | rfl
  · exact h.settled m (by omega) hd
  · subst hn
    rcases ho with ho | ho
    · exact absurd ho hd
    · exact ho

/-- What the last event of a transfer may be. -/
theorem Running.allowed_ended (h : Running origin s₀ n d drain ds s) {drains : Array (Option Drain)}
    (ho : Concludes n d drain s.past s.source outcome) : Allowed s.past ⟨n, .ended outcome, drains, s.source⟩ := by
  refine allowed_of_course rfl h.drainOf h.opened ?_ ho
  rw [h.deeds]
  exact .ended outcome h.course h.unended

/-- A transfer of a shared drain ends. -/
theorem Running.ended_concurrent (h : Running origin s₀ n d drain ds s) (hn : n = s₀.clock)
    (hm : drain.mode = .concurrent) (ho : Concludes n d drain s.past s.source outcome) :
    Leaves origin s₀ (s.note n (.ended outcome)) := by
  have hord := h.orderly.ended_concurrent h.clock h.drainOf h.opened hm (h.allowed_ended ho)
  refine (h.toUnderway.cons hord (State.past_note s n _) rfl h.since.shut fun _ _ hd => by cases hd).finish hn
    (Or.inr ?_)
  exact ⟨outcome, by rw [State.past_note, deeds_self rfl]; exact List.mem_cons_self⟩

/-- A transfer of a drain that is not shared ends. -/
theorem Running.ended_sequential (h : Running origin s₀ n d drain ds s) (hn : n = s₀.clock)
    (hm : drain.mode ≠ .concurrent) (own : Scratch) (cursor : Nat)
    (hcursor : cursor = cursorAfter (settledTo d s₀.past) outcome)
    (hp : t.past = ⟨n, .ended outcome, t.drains, t.source⟩ :: s.past)
    (ht : t.drains = (s.setDrain d (some ⟨drain.geometry, cursor, .sequential own⟩)).drains) (hs : t.source = s.source)
    (hc : t.clock = s.clock) (ho : Concludes n d drain s.past s.source outcome) : Leaves origin s₀ t := by
  obtain ⟨hempty, hset, hover⟩ := h.own hm
  have hsettled : settledTo d t.past = cursor := by
    rw [hp, hcursor]
    cases outcome with
    | ok report => simp only [settledTo, h.drainOf, cursorAfter, ↓reduceIte]
    | error halt => exact hset
  have hord := h.orderly.ended_sequential h.clock h.drainOf h.opened hm hempty hover hp ht hs (Nat.le_of_eq hc.symm)
    hsettled (hs ▸ h.allowed_ended ho)
  refine (h.toUnderway.cons hord hp hc ?_ fun _ _ hd => by cases hd).finish hn (Or.inr ?_)
  · intro d' hd'
    rw [ht, State.setDrain, Array.getElem?_setIfInBounds_ne (Ne.symm (h.reach d' hd'))]
    exact h.since.shut d' hd'
  · exact ⟨outcome, by rw [hp, deeds_self rfl]; exact List.mem_cons_self⟩

end PagedRing.Session
