import PagedRing.Proofs.Keeping
import PagedRing.Proofs.Runs

/-!
# Budgets suffice

A nested step takes a cue, and so does whatever makes a transfer lose an attempt to claim. As no step adds cues but
those it brings along, a budget above the number of cues is never used up.

* `State.cues`: the cues that may still be played.
* `Frugal`: what a player with a budget does not use up.
* `playCues_frugal`: a callback that plays a cue leaves fewer of them.
* `claim_finishes`: a claim with more attempts than cues comes to an end.
* `Session.never_unfinished`: no transfer of a session runs out of attempts.
-/

namespace PagedRing

namespace Session

/-! ## Cues to come -/

/-- The cues of a script are those of one call and those of all others. -/
theorem Script.cues_due_add_later (script : Script) (call : Nat) :
    Script.cues (script.due call) + Script.cues (script.later call) = Script.cues script := by
  induction script with
  | nil => rfl
  | cons cue script ih =>
    simp only [due, later, Script.cues] at ih ⊢
    by_cases h : cue.call = call
    · simp only [List.filter_cons, h, beq_self_eq_true, bne_self_eq_false, Bool.false_eq_true, ↓reduceIte,
        Script.cues] at ih ⊢
      omega
    · simp only [List.filter_cons, beq_eq_false_iff_ne.mpr h, bne_iff_ne.mpr h, Bool.false_eq_true, ↓reduceIte,
        Script.cues] at ih ⊢
      omega

/-- The number of cues in the script of the sink in a place, if there is one. -/
def placeCues : Option Sink → Nat
  | none => 0
  | some sink => Script.cues sink.script

/-- The number of cues that may still be played, at any depth; those of sinks in use are left out. -/
def State.cues (s : State) : Nat := Script.cues s.script + (s.sinks.toList.map placeCues).sum

/-- The number of cues that may still be played during a step. -/
def Frame.cues (f : Frame) : Nat := f.state.cues + Script.cues f.sink.script

theorem sum_set {places : List (Option Sink)} {k : Nat} {old : Option Sink} (h : places[k]? = some old)
    (place : Option Sink) :
    ((places.set k place).map placeCues).sum + placeCues old = (places.map placeCues).sum + placeCues place := by
  induction places generalizing k with
  | nil => cases h
  | cons first places ih =>
    cases k with
    | zero =>
      obtain rfl : first = old := by simpa using h
      simp only [List.set_cons_zero, List.map_cons, List.sum_cons]
      omega
    | succ k =>
      have := ih (k := k) (by simpa using h)
      simp only [List.set_cons_succ, List.map_cons, List.sum_cons]
      omega

/-- A place that is filled or emptied. -/
theorem State.cues_setSink {s : State} {k : Nat} {old : Option Sink} (h : s.sinks[k]? = some old)
    (place : Option Sink) : (s.setSink k place).cues + placeCues old = s.cues + placeCues place := by
  have := sum_set (by rw [Array.getElem?_toList]; exact h) place
  simp only [State.cues, State.setSink, Array.toList_setIfInBounds]
  omega

/-- A sink that is taken takes its cues along. -/
theorem State.cues_setSink_none {s : State} {k : Nat} {sink : Sink} (h : s.sink? k = some sink) :
    (s.setSink k none).cues + Script.cues sink.script = s.cues :=
  State.cues_setSink (Option.join_eq_some_iff.mp h) none

/-- A sink that is put back brings no cues but its own. -/
theorem State.cues_setSink_some (s : State) (k : Nat) (sink : Sink) :
    (s.setSink k (some sink)).cues ≤ s.cues + Script.cues sink.script := by
  simp only [State.cues, State.setSink, Array.toList_setIfInBounds]
  cases h : s.sinks.toList[k]? with
  | none =>
    rw [List.set_eq_of_length_le (List.getElem?_eq_none_iff.mp h)]
    omega
  | some old =>
    have := sum_set h (some sink)
    simp only [placeCues] at this
    omega

theorem State.cues_lend (s : State) (place : ScratchPlace) : (s.lend place).2.cues = s.cues := by
  cases place <;> rfl

theorem State.cues_giveBack (s : State) (place : ScratchPlace) (scratch : Scratch) :
    (s.giveBack place scratch).cues = s.cues := by
  cases place <;> rfl

/-! ## Frugal players -/

/-- Whether no transfer has run out of attempts. -/
def Finished (s : State) : Prop := ∀ e ∈ s.past, e.event ≠ .ended (.error .unfinished)

theorem Finished.congr {s t : State} (h : Finished s) (hp : t.past = s.past) : Finished t := by
  rw [Finished, hp]
  exact h

theorem Finished.note {s : State} (h : Finished s) (n : Nat) (event : Event)
    (hevent : event ≠ .ended (.error .unfinished)) : Finished (s.note n event) := by
  rw [Finished, State.past_note]
  exact List.forall_mem_cons.mpr ⟨hevent, h⟩

/-- What a player makes of a state with less than `budget` cues to come: it adds none, and no transfer runs out of
attempts. -/
def Frugal (budget : Nat) (player : Player) : Prop :=
  ∀ step s, Finished s → s.cues + step.cues < budget →
    (player step s).2.cues ≤ s.cues + step.cues ∧ Finished (player step s).2

variable {player : Player} {budget n d : Nat} {f : Frame} {s t : State}

/-- A callback that plays a cue leaves fewer of them. -/
theorem playCues_frugal (hp : Frugal budget player) (script : Script) (answers : Array Answer) (hs : Finished s)
    (hle : s.cues + Script.cues script ≤ budget) :
    (playCues player script answers s).2.2.cues ≤ s.cues + Script.cues script ∧
      (script ≠ [] → (playCues player script answers s).2.2.cues < s.cues + Script.cues script) ∧
      Finished (playCues player script answers s).2.2 := by
  induction script generalizing answers s with
  | nil => exact ⟨Nat.le_add_right _ _, fun h => absurd rfl h, hs⟩
  | cons cue script ih =>
    cases cue with
    | fail call cause =>
      simp only [Session.playCues, Script.cues, Cue.cues] at hle ⊢
      exact ⟨by omega, fun _ => by omega, hs⟩
    | play call step passOn =>
      simp only [Script.cues, Cue.cues] at hle ⊢
      obtain ⟨hplayed, hfinished⟩ := hp step s hs (by omega)
      unfold Session.playCues
      dsimp only
      split
      · exact ⟨by dsimp only; omega, fun _ => by dsimp only; omega, hfinished⟩
      · obtain ⟨hrest, -, hfinished⟩ := ih (answers.push (player step s).1) hfinished (by omega)
        exact ⟨by omega, fun _ => by omega, hfinished⟩

/-- What a running step knows while there are at most `cues` cues to come. -/
def Within (cues : Nat) (f : Frame) : Prop := f.cues ≤ cues ∧ Finished f.state

theorem Within.note {cues : Nat} (h : Within cues f) (event : Event) (hevent : event ≠ .ended (.error .unfinished)) :
    Within cues (f.note n event) :=
  ⟨h.1, h.2.note n event hevent⟩

/-- A read of the write position moves a shared cursor only if it plays a cue. -/
theorem readPosition_frugal (hp : Frugal budget player) (hf : f.cues ≤ budget) (hfinished : Finished f.state) :
    Within f.cues (f.readPosition player n).2 ∧
      ((f.readPosition player n).2.cues < f.cues ∨ (f.readPosition player n).2.state.drains = f.state.drains) := by
  have hsplit := Script.cues_due_add_later f.state.script f.state.reads
  unfold Frame.readPosition
  dsimp only
  cases hdue : f.state.script.due f.state.reads with
  | nil =>
    rw [hdue] at hsplit
    refine ⟨⟨?_, hfinished⟩, Or.inr rfl⟩
    simp only [List.isEmpty_nil, ↓reduceIte, Session.playCues, Frame.cues, State.cues, Script.cues] at hsplit ⊢
    omega
  | cons cue due =>
    rw [hdue] at hsplit
    simp only [List.isEmpty_cons, Bool.false_eq_true, ↓reduceIte]
    simp only [Frame.cues] at hf
    generalize hs : State.note { f.state with
      script := f.state.script.later f.state.reads, reads := f.state.reads + 1 } n (.prompted (cue :: due).length) = s
    have hcues : s.cues + Script.cues (cue :: due) = f.state.cues := by
      rw [← hs]
      simp only [State.cues, State.note]
      omega
    have hs' : Finished s := hs ▸ Finished.note (hfinished.congr rfl) n (.prompted _) (by simp)
    obtain ⟨-, hlt, hplayed⟩ := playCues_frugal hp (cue :: due) f.answers hs' (by omega)
    have hlt := hlt (List.cons_ne_nil _ _)
    rw [hcues] at hlt
    generalize playCues player (cue :: due) f.answers s = played at *
    obtain ⟨outcome, answers, t⟩ := played
    dsimp only at hlt hplayed ⊢
    refine ⟨⟨?_, hplayed⟩, Or.inl ?_⟩
    · simp only [Frame.cues]; omega
    · simp only [Frame.cues]; omega

theorem offer_frugal (hp : Frugal budget player) {cues : Nat} (hc : cues ≤ budget) (item : Bytes)
    (hf : Within cues f) : Within cues (f.offer player item).2 := by
  obtain ⟨hle, hfinished⟩ := hf
  have hsplit := Script.cues_due_add_later f.sink.script f.sink.calls
  simp only [Frame.cues] at hle
  obtain ⟨hplay, -, hplayed⟩ := playCues_frugal hp (f.sink.script.due f.sink.calls) f.answers
    hfinished (by omega)
  unfold Frame.offer
  dsimp only
  split
  all_goals
    next heq =>
    rw [heq] at hplay hplayed
    refine ⟨?_, hplayed⟩
    simp only [Frame.cues] at hplay ⊢
    omega

theorem accept_frugal (hp : Frugal budget player) {cues : Nat} (hc : cues ≤ budget) (bytes : Bytes)
    (hf : Within cues f) : Within cues (f.accept player n bytes).2 :=
  Frame.accept_keeps (fun item _ hf => offer_frugal hp hc item hf)
    (fun bytes _ hf => hf.note (.line bytes) nofun) (fun _ _ hf => hf) bytes hf

/-- Callbacks add no cues, and what they play does not run out of attempts. -/
theorem within_keeps (hp : Frugal budget player) {cues : Nat} (hc : cues ≤ budget) :
    (host player n).Keeps (Within cues) where
  position f hf := by
    obtain ⟨⟨hle, hfinished⟩, -⟩ := readPosition_frugal (n := n) hp (Nat.le_trans hf.1 hc) hf.2
    exact ⟨Nat.le_trans hle hf.1, hfinished⟩
  handOut := Host.handOut_keeps (fun _ _ hf => hf) (fun bytes _ hf => accept_frugal hp hc bytes hf)
    (fun span page _ hf _ => hf.note (.offered span (span.cut page)) nofun)
    (fun span bytes _ hf => hf.note (.accepted span bytes) nofun)
    (fun start stop taken len cause _ hf => hf.note (.refused start stop taken len cause) nofun)
  note event f hevent hf := hf.note event fun heq => by rw [heq] at hevent; cases hevent

/-! ## Transfers -/

/-- A delivery does not run out of attempts. -/
theorem deliver_ne_unfinished {σ : Type} (host : Host σ) (g : Geometry) (start len : Nat) (scratch : Scratch) (s : σ) :
    (host.deliver g start len scratch s).1 ≠ .error .unfinished := by
  have hhand : ∀ g done delivered span scratch s, (host.handOut g done delivered span scratch s).1 ≠
      .error .unfinished := by
    intro g done delivered span scratch s
    unfold Host.handOut
    split
    · rintro ⟨⟩
    · split
      · split
        · rintro ⟨⟩
        · split <;> rintro ⟨⟩
      · rintro ⟨⟩
  have hrest : ∀ plan done delivered scratch s, (host.deliverRest plan done delivered scratch s).1 ≠
      .error .unfinished := by
    intro plan done delivered scratch s
    fun_induction Host.deliverRest host plan done delivered scratch s with
    | case3 plan done delivered scratch s span rest hnext halt scratch' s' heq =>
      have := hhand plan.geometry done delivered span scratch s
      rw [heq] at this
      rintro ⟨⟩
      exact this rfl
    | case4 plan done delivered scratch s span rest hnext scratch' s' heq _ _ _ _ ih => exact ih
    | case1 | case2 | case5 | case6 => rintro ⟨⟩
  unfold Host.deliver
  split
  · rintro ⟨⟩
  · split
    · rintro ⟨⟩
    · split
      · exact hrest _ _ _ _ _
      · rintro ⟨⟩
      · rintro ⟨⟩

/-- A transfer of a drain that is not shared makes one attempt only. -/
theorem sequential_ne_unfinished {σ : Type} (host : Host σ) (g : Geometry) (cursor : Nat) (scratch : Scratch) (s : σ) :
    (Sequential.transfer host g cursor scratch s).1 ≠ .error .unfinished := by
  unfold Sequential.transfer Host.readPosition
  dsimp only
  split
  · next heq =>
    split at heq
    · cases heq
    · cases heq
      nofun
  · split
    · split
      · nofun
      · next len hlen =>
        split
        · nofun
        · next heq =>
          rintro ⟨⟩
          exact deliver_ne_unfinished host g cursor len scratch _ (congrArg Prod.fst heq)
    · nofun

theorem load_congr {f f' : Frame} (h : f'.state.drains = f.state.drains) :
    (cursorCell d).load f' = (cursorCell d).load f := by
  simp only [cursorCell, State.drain?, h]

/-- A claim with more attempts than cues comes to an end: an attempt is lost only if the cursor was moved, which takes
a cue. -/
theorem claim_finishes (hp : Frugal budget player) (g : Geometry) {attempts : Nat} (retries : Nat)
    (hf : f.cues ≤ budget) (hfinished : Finished f.state) (hlt : f.cues < attempts) :
    (Concurrent.claim (host player n) (cursorCell d) g attempts retries f).1 ≠ .error .unfinished := by
  induction attempts generalizing retries f with
  | zero => cases hlt
  | succ attempts ih =>
    have hloaded : Within f.cues (f.note n (.loaded ((cursorCell d).load f))) :=
      Within.note ⟨Nat.le_refl _, hfinished⟩ _ (by rintro ⟨⟩)
    obtain ⟨hwithin, hmoved⟩ := readPosition_frugal (n := n) hp (f := f.note n (.loaded ((cursorCell d).load f))) hf
      hloaded.2
    unfold Concurrent.claim Host.readPosition
    have hnote : ∀ event f, (host player n).note event f = f.note n event := fun _ _ => rfl
    have hread : ∀ f, (host player n).position f = f.readPosition player n := fun _ => rfl
    simp only [hnote, hread]
    generalize Frame.readPosition player n (f.note n (.loaded ((cursorCell d).load f))) = read at hwithin hmoved ⊢
    obtain ⟨position, f'⟩ := read
    dsimp only at hwithin hmoved ⊢
    split
    · next heq =>
      split at heq
      · cases heq
      · cases heq
        rintro ⟨⟩
    · next position' f'' heq =>
      obtain ⟨-, rfl⟩ := Prod.mk.inj heq
      split
      · split
        · rintro ⟨⟩
        · next hne =>
          -- the cursor was moved while the write position was read
          have hfewer : f'.cues < f.cues :=
            hmoved.resolve_right fun hdrains => hne (load_congr (f := f) hdrains)
          have hle : f'.cues ≤ budget := by omega
          have hsampled : Finished (f'.state.note n (.sampled position)) := hwithin.2.note n _ (by rintro ⟨⟩)
          split
          · rintro ⟨⟩
          · exact ih _ hle (hsampled.note n _ (by rintro ⟨⟩)) (Nat.lt_of_lt_of_le hfewer (Nat.le_of_lt_succ hlt))
      · rintro ⟨⟩

/-- Nor does a transfer of a shared drain run out of attempts, if it has more of them than there are cues. -/
theorem concurrent_ne_unfinished (hp : Frugal budget player) (g : Geometry) {attempts : Nat} (scratch : Scratch)
    (hf : f.cues ≤ budget) (hfinished : Finished f.state) (hlt : f.cues < attempts) :
    (Concurrent.transfer (host player n) (cursorCell d) g attempts scratch f).1 ≠ .error .unfinished := by
  have hclaim := claim_finishes (n := n) (d := d) hp g 0 hf hfinished hlt
  unfold Concurrent.transfer
  split
  · next heq =>
    rw [heq] at hclaim
    rintro ⟨⟩
    exact hclaim rfl
  · nofun
  · split
    · nofun
    · exact deliver_ne_unfinished _ _ _ _ _ _

/-! ## Every step -/

/-- What a step that uses a sink makes of the state: cues come and go with the sink. -/
theorem put_frugal (sink : Nat) {cues : Nat} (hf : Within cues f) (ht : t.cues = f.state.cues)
    (hp : t.past = f.state.past) :
    (t.setSink sink (some f.sink)).cues ≤ cues ∧ Finished (t.setSink sink (some f.sink)) := by
  have := t.cues_setSink_some sink f.sink
  refine ⟨?_, hf.2.congr hp⟩
  have := hf.1
  simp only [Frame.cues] at this
  omega

theorem transfer_frugal (hp : Frugal budget player) (hs : s.cues ≤ budget) (hfinished : Finished s) (index sink : Nat)
    (name : Option Nat) :
    (transfer player (budget + 1) n index sink name s).2.cues ≤ s.cues ∧
      Finished (transfer player (budget + 1) n index sink name s).2 := by
  unfold transfer
  split
  · next drain sink' hdrain hsink hscratch =>
    dsimp only
    generalize drain.mode.scratchPlace name s = place
    have htaken : (((s.note n (.began index sink)).setSink sink none).lend place).2.cues + Script.cues sink'.script =
        s.cues := by
      rw [State.cues_lend]
      exact State.cues_setSink_none (s := s.note n (.began index sink)) hsink
    have hpast : (((s.note n (.began index sink)).setSink sink none).lend place).2.past =
        (s.note n (.began index sink)).past :=
      (State.lend_same _ place).1
    generalize ((s.note n (.began index sink)).setSink sink none).lend place = lent at *
    obtain ⟨scratch, s₁⟩ := lent
    dsimp only at htaken hpast ⊢
    have hbegan : Within s.cues (Frame.enter s₁ sink') :=
      ⟨Nat.le_of_eq htaken, (hfinished.note n (.began index sink) nofun).congr hpast⟩
    have hkeeps := within_keeps (n := n) hp hs
    cases drain.mode with
    | sequential own =>
      simp only [transferSequential]
      have hkept := hkeeps.sequential drain.geometry drain.cursor own
        (s := { Frame.enter s₁ sink' with state := s₁.setDrain index none }) ⟨hbegan.1, hbegan.2⟩
      have hout := sequential_ne_unfinished (host player n) drain.geometry drain.cursor own
        { Frame.enter s₁ sink' with state := s₁.setDrain index none }
      simp only [Frame.enter] at hkept hout ⊢
      generalize Sequential.transfer (host player n) drain.geometry drain.cursor own _ = result at *
      obtain ⟨outcome, cursor, own', f⟩ := result
      have hput := put_frugal sink (f := f)
        (t := (f.state.setDrain index (some ⟨drain.geometry, cursor, .sequential own'⟩)).giveBack place scratch) hkept
        (State.cues_giveBack _ place scratch) (State.giveBack_same _ place scratch).1
      exact ⟨hput.1, hput.2.note n _ fun heq => hout (Event.ended.inj heq)⟩
    | concurrent =>
      simp only [transferConcurrent]
      have hkept := hkeeps.concurrent (cursorCell index) (fun _ _ hf => hf) drain.geometry (budget + 1) scratch
        hbegan
      have hout := concurrent_ne_unfinished (n := n) (d := index) hp drain.geometry scratch
        (Nat.le_trans hbegan.1 hs) hbegan.2 (Nat.lt_succ_of_le (Nat.le_trans hbegan.1 hs))
      generalize Concurrent.transfer (host player n) (cursorCell index) drain.geometry (budget + 1) scratch _ =
        result at *
      obtain ⟨outcome, scratch', f⟩ := result
      have hput := put_frugal sink (f := f) (t := f.state.giveBack place scratch') hkept
        (State.cues_giveBack _ place scratch') (State.giveBack_same _ place scratch').1
      exact ⟨hput.1, hput.2.note n _ fun heq => hout (Event.ended.inj heq)⟩
  · exact ⟨Nat.le_refl _, hfinished⟩

theorem deliver_frugal (hp : Frugal budget player) (hs : s.cues ≤ budget) (hfinished : Finished s)
    (start len sink : Nat) (name : Option Nat) (sizes : Option Sizes) :
    (Session.deliver player n start len sink name sizes s).2.cues ≤ s.cues ∧
      Finished (Session.deliver player n start len sink name sizes s).2 := by
  unfold Session.deliver
  split
  · exact ⟨Nat.le_refl _, hfinished⟩
  · next g hg =>
    split
    · next sink' hsink hscratch =>
      dsimp only
      have htaken : ((s.setSink sink none).lend (.ofName name)).2.cues + Script.cues sink'.script = s.cues := by
        rw [State.cues_lend]
        exact State.cues_setSink_none hsink
      have hpast := ((s.setSink sink none).lend_same (.ofName name)).1
      generalize (s.setSink sink none).lend (.ofName name) = lent at *
      obtain ⟨scratch, s₁⟩ := lent
      dsimp only at htaken hpast ⊢
      have hkept := (within_keeps (n := n) hp hs).deliver g start len scratch
        (s := Frame.enter s₁ sink') ⟨Nat.le_of_eq htaken, hfinished.congr hpast⟩
      generalize (host player n).deliver g start len scratch _ = result at *
      obtain ⟨outcome, scratch', f⟩ := result
      exact put_frugal sink hkept (State.cues_giveBack _ _ scratch') (State.giveBack_same _ _ scratch').1
    · exact ⟨Nat.le_refl _, hfinished⟩

theorem feed_step_frugal (hp : Frugal budget player) (hs : s.cues ≤ budget) (hfinished : Finished s) (sink : Nat)
    (bytes : Bytes) : (feed player n sink bytes s).2.cues ≤ s.cues ∧ Finished (feed player n sink bytes s).2 := by
  unfold feed
  split
  · exact ⟨Nat.le_refl _, hfinished⟩
  · next sink' hsink =>
    have hkept := accept_frugal (n := n) hp hs bytes (f := Frame.enter (s.setSink sink none) sink')
      ⟨Nat.le_of_eq (State.cues_setSink_none hsink), hfinished⟩
    exact put_frugal sink hkept rfl rfl

/-- A step without callbacks brings no cues but those of a sink that it opens. -/
theorem plainly_frugal {step : Step} (h : Plainly n s step t) (hs : Finished s) :
    t.cues ≤ s.cues + step.cues ∧ Finished t := by
  have hkept : s.cues ≤ s.cues + step.cues := Nat.le_add_right _ _
  cases h with
  | kept => exact ⟨hkept, hs⟩
  | wrote source =>
    refine ⟨hkept, Finished.note ?_ n (.wrote _) (by simp)⟩
    exact hs.congr rfl
  | opened lt =>
    refine ⟨hkept, Finished.note ?_ n (.opened _ _) (by simp)⟩
    exact hs.congr rfl
  | reset | closed | scratch => exact ⟨hkept, hs.congr rfl⟩
  | sink kind script =>
    refine ⟨?_, hs⟩
    simp only [State.openSink, State.cues, Array.toList_push, List.map_append, List.map_cons, List.map_nil,
      List.sum_append, List.sum_cons, List.sum_nil, Step.cues]
    cases kind <;> exact Nat.le_of_eq (Nat.add_assoc _ _ _).symm
  | @limited sink limit framer script calls kept place =>
    -- the sink comes back with the same script
    have := State.cues_setSink (Option.join_eq_some_iff.mp place)
      (some ⟨.lines (framer.limited limit), script, calls, kept⟩)
    exact ⟨Nat.le_trans (Nat.le_of_eq (Nat.add_right_cancel this)) hkept, hs⟩
  | taken place =>
    have := State.cues_setSink_none place
    exact ⟨Nat.le_trans (Nat.le_trans (Nat.le_add_right _ _) (Nat.le_of_eq this)) hkept, hs⟩

/-- A step is played frugally with one cue more than the steps of its callbacks. -/
theorem playStep_frugal (hp : Frugal budget player) : Frugal (budget + 1) (playStep player (budget + 1)) := by
  intro step s hs hlt
  have hle : s.cues + step.cues ≤ budget := Nat.le_of_lt_succ hlt
  have hstart : Finished { s with clock := s.clock + 1 } := hs.congr rfl
  cases hcalls : step.calls with
  | false => exact (plainly_frugal (playStep_plainly player (budget + 1) hcalls s) hstart :)
  | true =>
    have hroom : State.cues { s with clock := s.clock + 1 } ≤ budget :=
      Nat.le_trans (Nat.le_add_right s.cues step.cues) hle
    have hthen : ∀ {t : State}, t.cues ≤ State.cues { s with clock := s.clock + 1 } ∧ Finished t →
        t.cues ≤ s.cues + step.cues ∧ Finished t := fun h => ⟨Nat.le_trans h.1 (Nat.le_add_right s.cues _), h.2⟩
    unfold playStep
    cases step with
    | transfer drain sink scratch => exact hthen (transfer_frugal hp hroom hstart drain sink scratch)
    | deliver start len sink scratch sizes => exact hthen (deliver_frugal hp hroom hstart start len sink scratch sizes)
    | feed sink bytes => exact hthen (feed_step_frugal hp hroom hstart sink bytes)
    | _ => cases hcalls

/-- Every step is played frugally. -/
theorem play_frugal (budget : Nat) : Frugal budget (play budget) := by
  induction budget with
  | zero => exact fun _ _ _ hlt => absurd hlt (Nat.not_lt_zero _)
  | succ budget ih => exact playStep_frugal ih

/-- Steps that are played one after the other, with a budget above the number of all their cues. -/
theorem playAll_frugal (budget : Nat) (steps : List Step) (hs : Finished s)
    (hlt : s.cues + (steps.map Step.cues).sum < budget) : Finished (playAll budget steps s).2 := by
  induction steps generalizing s with
  | nil => exact hs
  | cons step steps ih =>
    rw [List.map_cons, List.sum_cons] at hlt
    obtain ⟨hle, hfinished⟩ := play_frugal budget step s hs (by omega)
    exact ih hfinished (by omega)

/-- The cues of a session are those of its script and those of its steps. -/
theorem cues_eq (session : Session) :
    session.cues = Script.cues session.script + (session.steps.map Step.cues).sum := by
  unfold cues
  induction session.steps with
  | nil => rfl
  | cons step steps ih => rw [List.foldr_cons, ih, List.map_cons, List.sum_cons]; omega

/-- No transfer of a session runs out of attempts. -/
theorem never_unfinished (session : Session) : ∀ e ∈ session.past, e.event ≠ .ended (.error .unfinished) := by
  refine playAll_frugal (session.cues + 1) session.steps (s := .initial _ _ _) (fun _ he => by cases he) ?_
  rw [session.cues_eq]
  exact Nat.lt_succ_self _

end Session

end PagedRing
