import PagedRing.Proofs.History
import PagedRing.Proofs.Keeping
import PagedRing.Proofs.Steps

/-!
# Reads of the write position

A transfer that has read the shared cursor goes on to read the write position, and nothing gets between the two: cues
that the read plays are announced first. Each cue of the session's script is taken out of the script when its read is
announced, so it is played at most once.

* `Event.prompts?`: the number of cues that an event announces.
* `Expects`: a transfer that has read the cursor and nothing after it.
* `Paced`: what every state keeps, the number of cues played and still to come included.
* `Paced.readPosition`: one read of the write position.
* `play_paces`, `Session.paced`: every step, and every session.
-/

namespace PagedRing

/-- The number of cues that an event announces. -/
def Event.prompts? : Event → Option Nat
  | .prompted cues => some cues
  | _ => none

/-- Whether an event neither reads the shared cursor nor announces cues. -/
def Event.aside : Event → Bool
  | .loaded _ | .prompted _ => false
  | _ => true

namespace Session

/-! ## Histories -/

/-- The number of cues that reads of the write position have announced. -/
def announced : List Entry → Nat
  | [] => 0
  | e :: past => announced past + e.event.prompts?.getD 0

/-- A step has read the shared cursor and has done nothing since. -/
def Expects (m : Nat) (past : List Entry) : Prop := ∃ cursor ds, deeds m past = .loaded cursor :: ds

/-- What comes after a step has read the shared cursor is its own, and reads that announce cues have some. -/
def Heeds (e : Entry) (past : List Entry) : Prop :=
  (∀ m, Expects m past → e.step = m ∧ e.event.isLine = false) ∧ ∀ cues, e.event = .prompted cues → 0 < cues

variable {player : Player} {cues n m d : Nat} {s t : State} {f : Frame} {event : Event} {past : List Entry}
  {drains : Array (Option Drain)} {source : Source} {busy : Option Nat}

theorem announced_of_aside (h : event.aside = true) :
    announced (⟨n, event, drains, source⟩ :: past) = announced past := by
  cases event with
  | loaded | prompted => cases h
  | _ => rfl

/-- An event that does not read the cursor leaves no step at that point, but those that were there. -/
theorem Expects.of_cons (h : Expects m (⟨n, event, drains, source⟩ :: past)) (hl : ∀ cursor, event ≠ .loaded cursor) :
    Expects m past ∧ ¬(n = m ∧ event.isLine = false) := by
  obtain ⟨cursor, ds, hds⟩ := h
  by_cases hn : n = m ∧ event.isLine = false
  · rw [deeds, if_pos hn] at hds
    exact absurd (List.cons.inj hds).1 (hl cursor)
  · rw [deeds, if_neg hn] at hds
    exact ⟨⟨cursor, ds, hds⟩, hn⟩

/-! ## States -/

/-- What every state keeps in a session whose script has so many cues; `busy` is the step that has just read the shared
cursor. -/
structure Paced (cues : Nat) (busy : Option Nat) (s : State) : Prop where
  heeds : Throughout Heeds s.past
  expects : ∀ m, Expects m s.past → busy = some m
  /-- A cue was announced, or it is still to come. -/
  spent : announced s.past + s.script.length = cues

namespace Paced

theorem same (h : Paced cues busy s) (hpast : t.past = s.past) (hscript : t.script.length = s.script.length) :
    Paced cues busy t := by
  refine ⟨?_, ?_, ?_⟩
  · rw [hpast]
    exact h.heeds
  · rw [hpast]
    exact h.expects
  · rw [hpast, hscript]
    exact h.spent

/-- An event of the step that has just read the cursor, or of any step if there is none. -/
theorem note (h : Paced cues busy s) (hbusy : ∀ m, busy = some m → n = m ∧ event.isLine = false)
    (hevent : event.aside = true) : Paced cues none (s.note n event) := by
  have hl : ∀ cursor, event ≠ .loaded cursor := by
    rintro cursor rfl
    cases hevent
  refine ⟨?_, ?_, ?_⟩
  · rw [State.past_note]
    refine .cons h.heeds ⟨fun m hm => hbusy m (h.expects m hm), ?_⟩
    rintro cues rfl
    cases hevent
  · rw [State.past_note]
    intro m hm
    obtain ⟨hm, hne⟩ := hm.of_cons hl
    exact absurd (hbusy m (h.expects m hm)) hne
  · rw [State.past_note, announced_of_aside hevent]
    exact h.spent

/-- An event while no step has just read the cursor. -/
theorem note_free (h : Paced cues none s) (hevent : event.aside = true) : Paced cues none (s.note n event) := by
  apply h.note _ hevent
  rintro m ⟨⟩

/-- A step reads the cursor. -/
theorem loaded (h : Paced cues none s) (n cursor : Nat) : Paced cues (some n) (s.note n (.loaded cursor)) := by
  refine ⟨?_, ?_, ?_⟩
  · rw [State.past_note]
    refine .cons h.heeds ⟨?_, ?_⟩
    · intro m hm
      cases h.expects m hm
    · rintro cues ⟨⟩
  · rw [State.past_note]
    intro m hm
    by_cases hn : n = m
    · rw [hn]
    · obtain ⟨cursor', ds, hds⟩ := hm
      rw [deeds_of_ne hn] at hds
      cases h.expects m ⟨cursor', ds, hds⟩
  · rw [State.past_note]
    exact h.spent

/-- The cues of a read are announced, and they are taken out of the script. -/
theorem prompted (h : Paced cues busy s) (hbusy : ∀ m, busy = some m → n = m) {due : Nat} (hdue : 0 < due)
    (hpast : t.past = ⟨n, .prompted due, drains, source⟩ :: s.past)
    (hscript : due + t.script.length = s.script.length) : Paced cues none t := by
  refine ⟨?_, ?_, ?_⟩
  · rw [hpast]
    refine .cons h.heeds ⟨fun m hm => ⟨hbusy m (h.expects m hm), rfl⟩, ?_⟩
    rintro cues ⟨⟩
    exact hdue
  · rw [hpast]
    intro m hm
    obtain ⟨hm, hne⟩ := hm.of_cons (by rintro cursor ⟨⟩)
    exact absurd ⟨hbusy m (h.expects m hm), rfl⟩ hne
  · have := h.spent
    rw [hpast, announced]
    simp only [Event.prompts?, Option.getD_some]
    omega

end Paced

/-! ## Callbacks -/

/-- Whether steps keep this between them. -/
def Paces (cues : Nat) (player : Player) : Prop := ∀ step s, Paced cues none s → Paced cues none (player step s).2

/-- The cues of a script are those of one call and those of all others. -/
theorem Script.length_due_add_later (script : Script) (call : Nat) :
    (script.due call).length + (script.later call).length = script.length :=
  (List.length_eq_length_filter_add _).symm

theorem playCues_paced (hp : Paces cues player) (script : Script) (answers : Array Answer) (h : Paced cues none s) :
    Paced cues none (playCues player script answers s).2.2 :=
  playCues_keeps (fun _ step _ _ => hp step) answers h

namespace Paced

/-- A read of the write position: its cues are announced before anything else happens, and without cues nothing
happens in between. -/
theorem readPosition (hp : Paces cues player) (h : Paced cues busy f.state) (hbusy : ∀ m, busy = some m → n = m)
    (g : Geometry) : Paced cues none ((host player n).readPosition g f).2.state := by
  have hsplit := Script.length_due_add_later f.state.script f.state.reads
  have hown : ∀ m, busy = some m → n = m ∧ Event.isLine (.sampled (f.readPosition player n).1) = false :=
    fun m hm => ⟨hbusy m hm, rfl⟩
  show Paced cues none ((f.readPosition player n).2.state.note n (.sampled (f.readPosition player n).1))
  revert hown
  unfold Frame.readPosition
  dsimp only
  cases hdue : f.state.script.due f.state.reads with
  | nil =>
    intro hown
    rw [hdue, List.length_nil, Nat.zero_add] at hsplit
    have hread : Paced cues busy
        { f.state with script := f.state.script.later f.state.reads, reads := f.state.reads + 1 } :=
      h.same rfl hsplit
    exact hread.note hown rfl
  | cons cue due =>
    intro hown
    rw [hdue] at hsplit
    have hprompted : Paced cues none (State.note
        { f.state with script := f.state.script.later f.state.reads, reads := f.state.reads + 1 } n
        (.prompted (cue :: due).length)) :=
      h.prompted hbusy (Nat.zero_lt_succ _) (State.past_note _ n _) hsplit
    exact (playCues_paced hp (cue :: due) f.answers hprompted).note_free rfl

theorem offer (hp : Paces cues player) (item : Bytes) (h : Paced cues none f.state) :
    Paced cues none (f.offer player item).2.state := by
  rw [Frame.state_offer]
  exact playCues_paced hp _ _ h

theorem accept (hp : Paces cues player) (bytes : Bytes) (h : Paced cues none f.state) :
    Paced cues none (f.accept player n bytes).2.state :=
  Frame.accept_keeps (P := fun f => Paced cues none f.state) (fun item _ hf => hf.offer hp item)
    (fun _ _ hf => hf.note_free rfl) (fun _ _ hf => hf) bytes h

/-- Chunks keep it. -/
theorem hands (hp : Paces cues player) : (host player n).Hands fun f => Paced cues none f.state where
  handOut := Host.handOut_keeps (fun _ _ hf => hf) (fun bytes _ hf => hf.accept hp bytes)
    (fun _ _ _ hf _ => hf.note_free rfl) (fun _ _ _ hf => hf.note_free rfl)
    (fun _ _ _ _ _ _ hf => hf.note_free rfl)
  planned _ _ hf := hf.note_free rfl
  delivered _ _ hf := hf.note_free rfl

/-- Attempts to claim keep it: each reads the cursor and, right after it, the write position. -/
theorem claim (hp : Paces cues player) (g : Geometry) (attempts retries : Nat) (h : Paced cues none f.state) :
    Paced cues none (Concurrent.claim (host player n) (cursorCell d) g attempts retries f).2.state := by
  induction attempts generalizing retries f with
  | zero => exact h
  | succ attempts ih =>
    have hloaded : Paced cues (some n) (f.note n (.loaded ((cursorCell d).load f))).state := h.loaded n _
    have hread := hloaded.readPosition hp (fun m hm => Option.some.inj hm) g
    unfold Concurrent.claim
    dsimp only
    have hnote : ∀ event f, (host player n).note event f = f.note n event := fun _ _ => rfl
    rw [hnote]
    generalize (host player n).readPosition g (f.note n (.loaded ((cursorCell d).load f))) = read at hread ⊢
    obtain ⟨answer, f'⟩ := read
    cases answer with
    | error halt => exact hread
    | ok position =>
      dsimp only
      split
      · split
        · have hstored : Paced cues none ((cursorCell d).store position f').state := hread.same rfl rfl
          exact hstored.note_free rfl
        · split
          · exact hread
          · exact ih _ (hread.note_free rfl)
      · exact hread

/-! ## Steps -/

/-- Scratches come and go. -/
theorem lend (h : Paced cues none s) (place : ScratchPlace) : Paced cues none (s.lend place).2 := by
  cases place <;> exact h.same rfl rfl

theorem giveBack (h : Paced cues none s) (place : ScratchPlace) (scratch : Scratch) :
    Paced cues none (s.giveBack place scratch) := by
  cases place <;> exact h.same rfl rfl

/-- So do sinks. -/
theorem setSink (h : Paced cues none s) (k : Nat) (sink : Option Sink) : Paced cues none (s.setSink k sink) :=
  h.same rfl rfl

theorem deliver (hp : Paces cues player) (h : Paced cues none s) (start len k : Nat) (name : Option Nat)
    (sizes : Option Sizes) : Paced cues none (Session.deliver player n start len k name sizes s).2 := by
  unfold Session.deliver
  split
  · exact h
  · next g hg =>
    split
    · next sink hsink hscratch =>
      have hlent : Paced cues none (Frame.enter ((s.setSink k none).lend (.ofName name)).2 sink).state :=
        (h.setSink k none).lend (.ofName name)
      have hend := (hands (n := n) hp).deliver g start len ((s.setSink k none).lend (.ofName name)).1 hlent
      exact (hend.giveBack _ _).setSink k _
    · exact h

theorem feed (hp : Paces cues player) (h : Paced cues none s) (k : Nat) (bytes : Bytes) :
    Paced cues none (Session.feed player n k bytes s).2 := by
  unfold Session.feed
  split
  · exact h
  · next sink hsink =>
    have hstart : Paced cues none (Frame.enter (s.setSink k none) sink).state := h.setSink k none
    exact (hstart.accept (n := n) hp bytes).setSink k _

theorem transfer (hp : Paces cues player) (h : Paced cues none s) (budget d k : Nat) (name : Option Nat) :
    Paced cues none (Session.transfer player budget n d k name s).2 := by
  unfold Session.transfer
  split
  · next drain sink hdrain hsink hscratch =>
    have hbegan : Paced cues none (s.note n (.began d k)) := h.note_free rfl
    dsimp only
    generalize drain.mode.scratchPlace name s = place
    have hstart : Paced cues none (Frame.enter (((s.note n (.began d k)).setSink k none).lend place).2 sink).state :=
      (hbegan.setSink k none).lend place
    have hend := leftover_keeps_of_found (d := d) (hands (n := n) hp)
      (fun g f hf => hf.readPosition hp (by rintro m ⟨⟩) g) (fun g attempts f hf => hf.claim hp g attempts 0)
      (fun _ _ hf => hf.same rfl rfl) budget drain (((s.note n (.began d k)).setSink k none).lend place).1 hstart
    exact ((hend.giveBack place _).setSink k _).note_free rfl
  · exact h

/-- A step without callbacks plays no cues. -/
theorem plainly (h : Paced cues none s) {step : Step} (hstep : Plainly n s step t) : Paced cues none t := by
  cases hstep with
  | @wrote bytes ring source =>
    have hset : Paced cues none { s with source := .ring (ring.write bytes) } := h.same rfl rfl
    exact hset.note_free rfl
  | @opened _ _ _ drain lt =>
    have hset : Paced cues none { s with drains := s.drains.push (some drain) } := h.same rfl rfl
    exact hset.note_free rfl
  | kept | reset | closed | scratch | sink | limited | taken => exact h.same rfl rfl

end Paced

end Session

end PagedRing
