import PagedRing.Proofs.History
import PagedRing.Proofs.Keeping
import PagedRing.Proofs.Steps

/-!
# Scratches in use

A scratch is out of its place while a step uses it, and no step that a callback plays puts one there. So nothing gets
between the copy of a page and the chunk that is handed out: at any depth, a chunk is cut from the page as the source
has it when the chunk is offered.

* `Entry.Cut`: a chunk that was cut from its page.
* `State.Has`, `State.Lacks`: places with a scratch and without.
* `Reserved`: what a step leaves alone, whatever its callbacks play.
* `keeps_lacks`: the place of a scratch in use is empty whenever a callback is played.
* `play_reserves`, `playAll_reserves`: every step, and every session.
-/

namespace PagedRing.Session

/-- If an entry says that a chunk was offered, the chunk is cut from the page that the source had then. -/
def Entry.Cut (e : Entry) : Prop :=
  ∀ span bytes, e.event = .offered span bytes → ∃ page, e.source.page span.page = .ok page ∧ bytes = span.cut page

/-- Scratches that are in use stay out of their places, and if all chunks so far were cut from their pages, all those
after them are. -/
structure Reserved (s t : State) : Prop where
  /-- A place that is empty stays so. -/
  named : ∀ index : Nat, s.scratches[index]? = some none → t.scratches[index]? = some none
  /-- So does that of the scratch of transfers that name none. -/
  shared : s.shared = none → t.shared = none
  /-- Chunks are cut from their pages. -/
  cut : (∀ e ∈ s.journal, e.Cut) → ∀ e ∈ t.journal, e.Cut

/-- Steps are played with scratches that are not in use. -/
def Reserves (player : Player) : Prop := ∀ step s, Reserved s (player step s).2

variable {player : Player} {s s₀ t : State} {n : Nat} {f : Frame}

/-! ## Places of scratches -/

/-- A scratch is in its place. -/
def State.Has (s : State) : ScratchPlace → Prop
  | .named index => (s.scratch? index).isSome = true
  | .shared => s.shared.isSome = true
  | .nowhere => True

/-- The place of a scratch is empty. -/
def State.Lacks (s : State) : ScratchPlace → Prop
  | .named index => s.scratches[index]? = some none
  | .shared => s.shared = none
  | .nowhere => True

theorem State.has_ofName {name : Option Nat} (h : s.hasScratch name = true) : s.Has (.ofName name) := by
  cases name with
  | none => trivial
  | some index => exact h

theorem State.has_scratchPlace {name : Option Nat} (h : s.hasScratch name = true) : s.Has (s.scratchPlace name) := by
  cases name with
  | none =>
    simp only [State.scratchPlace]
    split
    · next hshared => exact hshared
    · trivial
  | some index => exact h

/-- The scratch that a transfer is given is in its place. -/
theorem DrainMode.has_scratchPlace (mode : DrainMode) {name : Option Nat} (h : s.hasScratch name = true) :
    s.Has (mode.scratchPlace name s) := by
  cases mode with
  | sequential own => exact State.has_ofName h
  | concurrent => exact State.has_scratchPlace h

/-- A scratch leaves its place when it is taken. -/
theorem State.Has.lend {place : ScratchPlace} (h : s.Has place) : (s.lend place).2.Lacks place := by
  cases place with
  | named index =>
    have hlt : index < s.scratches.size := by
      apply Nat.lt_of_not_le
      intro hle
      simp [State.Has, State.scratch?, Array.getElem?_eq_none hle] at h
    exact Array.getElem?_setIfInBounds_self_of_lt hlt
  | shared => rfl
  | nowhere => trivial

namespace Reserved

theorem refl (s : State) : Reserved s s := ⟨fun _ h => h, id, id⟩

theorem trans {r : State} (h : Reserved r s) (h' : Reserved s t) : Reserved r t :=
  ⟨fun index hi => h'.named index (h.named index hi), fun hs => h'.shared (h.shared hs), fun hc => h'.cut (h.cut hc)⟩

/-- Nothing but scratches and the journal matters. -/
theorem same (h : Reserved s₀ s) (hscratches : t.scratches = s.scratches) (hshared : t.shared = s.shared)
    (hjournal : t.journal = s.journal) : Reserved s₀ t := by
  refine ⟨?_, ?_, ?_⟩
  · rw [hscratches]
    exact h.named
  · rw [hshared]
    exact h.shared
  · rw [hjournal]
    exact h.cut

/-- An event that offers no chunk, or one that is cut from its page. -/
theorem note_cut (h : Reserved s₀ s) {event : Event} (hcut : Entry.Cut ⟨n, event, s.drains, s.source⟩) :
    Reserved s₀ (s.note n event) := by
  refine ⟨h.named, h.shared, fun hs e he => ?_⟩
  rcases Array.mem_push.mp he with he | rfl
  · exact h.cut hs e he
  · exact hcut

theorem note (h : Reserved s₀ s) {event : Event} (hevent : event.offers = false) : Reserved s₀ (s.note n event) := by
  refine h.note_cut fun span bytes heq => ?_
  obtain rfl : event = .offered span bytes := heq
  cases hevent

/-! ## Callbacks -/

theorem playCues (hp : Reserves player) (script : Script) (answers : Array Answer) (h : Reserved s₀ s) :
    Reserved s₀ (playCues player script answers s).2.2 :=
  playCues_keeps (fun _ step _ _ s hs => hs.trans (hp step s)) answers h

theorem readPosition (hp : Reserves player) (h : Reserved s₀ f.state) :
    Reserved s₀ (f.readPosition player n).2.state := by
  have hs : Reserved s₀
      { f.state with script := f.state.script.later f.state.reads, reads := f.state.reads + 1 } := h.same rfl rfl rfl
  unfold Frame.readPosition
  dsimp only
  refine playCues hp _ _ ?_
  split
  · exact hs
  · exact hs.note rfl

theorem offer (hp : Reserves player) (item : Bytes) (h : Reserved s₀ f.state) :
    Reserved s₀ (f.offer player item).2.state := by
  rw [Frame.state_offer]
  exact playCues hp _ _ h

theorem accept (hp : Reserves player) (bytes : Bytes) (h : Reserved s₀ f.state) :
    Reserved s₀ (f.accept player n bytes).2.state :=
  Frame.accept_keeps (P := fun f => Reserved s₀ f.state) (fun item _ hf => hf.offer hp item)
    (fun _ _ hf => hf.note rfl) (fun _ _ hf => hf) bytes h

/-- Deliveries keep it: a chunk is offered right after its page was fetched. -/
theorem keeps (hp : Reserves player) : (host player n).Keeps fun f => Reserved s₀ f.state where
  position _ hf := hf.readPosition hp
  handOut := Host.handOut_keeps (fun _ _ hf => hf) (fun bytes _ hf => hf.accept hp bytes)
    (fun span page f hf hpage => hf.note_cut fun span' bytes heq => by
      obtain ⟨rfl, rfl⟩ := Event.offered.inj heq
      exact ⟨page, hpage, rfl⟩)
    (fun _ _ _ hf => hf.note rfl) (fun _ _ _ _ _ _ hf => hf.note rfl)
  note event _ hevent hf := hf.note (by cases event <;> first | rfl | cases hevent)

/-! ## Steps -/

/-- A scratch that is in its place is taken from there, and what happens until it comes back leaves the other places
alone. -/
theorem giveBack {place : ScratchPlace} (hplace : s.Has place) (h : Reserved (s.lend place).2 t) (scratch : Scratch) :
    Reserved s (t.giveBack place scratch) := by
  cases place with
  | named index =>
    refine ⟨fun i hi => ?_, h.shared, h.cut⟩
    have hne : index ≠ i := by
      rintro rfl
      simp only [State.Has, State.scratch?, hi, Option.join_some, Option.isSome_none, Bool.false_eq_true] at hplace
    have hlent : (s.lend (.named index)).2.scratches[i]? = some none := by
      simp only [State.lend, Array.getElem?_setIfInBounds_ne hne, hi]
    simp only [State.giveBack, Array.getElem?_setIfInBounds_ne hne]
    exact h.named i hlent
  | shared =>
    refine ⟨h.named, fun hnone => ?_, h.cut⟩
    simp only [State.Has, hnone, Option.isSome_none, Bool.false_eq_true] at hplace
  | nowhere => exact h

theorem deliver (hp : Reserves player) (s : State) (start len k : Nat) (name : Option Nat) (sizes : Option Sizes) :
    Reserved s (Session.deliver player n start len k name sizes s).2 := by
  unfold Session.deliver
  split
  · exact refl s
  · next g _ =>
    split
    · next sink _ hscratch =>
      have hlent : Reserved ((s.setSink k none).lend (.ofName name)).2
          (Frame.enter ((s.setSink k none).lend (.ofName name)).2 sink).state := refl _
      have hend := (keeps (n := n) hp).deliver g start len ((s.setSink k none).lend (.ofName name)).1 hlent
      dsimp only
      generalize (host player n).deliver g start len _ _ = result at hend ⊢
      obtain ⟨outcome, scratch, f⟩ := result
      have hback : Reserved (s.setSink k none) (f.state.giveBack (.ofName name) scratch) :=
        giveBack (s := s.setSink k none) (State.has_ofName hscratch) hend scratch
      have hstart : Reserved s (s.setSink k none) := (refl s).same rfl rfl rfl
      exact (hstart.trans hback).same rfl rfl rfl
    · exact refl s

theorem feed (hp : Reserves player) (s : State) (k : Nat) (bytes : Bytes) :
    Reserved s (Session.feed player n k bytes s).2 := by
  unfold Session.feed
  split
  · exact refl s
  · next sink _ =>
    have hstart : Reserved s (Frame.enter (s.setSink k none) sink).state := (refl s).same rfl rfl rfl
    exact (hstart.accept (n := n) hp bytes).same rfl rfl rfl

/-- A transfer ends, and its scratch and its sink come back. -/
theorem ended {left : Leftover} {place : ScratchPlace} (h : Reserved s₀ s)
    (hplace : s.Has place) (hend : Reserved (s.lend place).2 left.frame.state) (k : Nat) :
    Reserved s₀ (((left.frame.state.giveBack place left.scratch).setSink k (some left.frame.sink)).note n
      (.ended left.outcome)) := by
  have hback := h.trans (giveBack hplace hend left.scratch)
  have hput : Reserved s₀ ((left.frame.state.giveBack place left.scratch).setSink k (some left.frame.sink)) :=
    hback.same rfl rfl rfl
  exact hput.note rfl

theorem transfer (hp : Reserves player) (s : State) (budget d k : Nat) (name : Option Nat) :
    Reserved s (Session.transfer player budget n d k name s).2 := by
  unfold Session.transfer
  split
  · next drain sink _ _ hscratch =>
    have hplace := DrainMode.has_scratchPlace drain.mode hscratch
    have hnoted : Reserved s (s.note n (.began d k)) := (refl s).note rfl
    have hbegun : Reserved s ((s.note n (.began d k)).setSink k none) := hnoted.same rfl rfl rfl
    dsimp only
    generalize drain.mode.scratchPlace name s = place at hplace ⊢
    have hlent : Reserved (((s.note n (.began d k)).setSink k none).lend place).2
        (Frame.enter (((s.note n (.began d k)).setSink k none).lend place).2 sink).state := refl _
    have hend := leftover_keeps (keeps (n := n) hp) (fun _ _ hf => hf.same rfl rfl rfl) budget d drain
      (((s.note n (.began d k)).setSink k none).lend place).1 hlent
    exact hbegun.ended hplace hend k
  · exact refl s

end Reserved

theorem Reserved.lacks (h : Reserved s t) {place : ScratchPlace} (hs : s.Lacks place) : t.Lacks place := by
  cases place with
  | named index => exact h.named index hs
  | shared => exact h.shared hs
  | nowhere => trivial

/-- An empty place stays empty throughout a delivery, whatever callbacks play. -/
theorem keeps_lacks (hp : Reserves player) (place : ScratchPlace) :
    (host player n).Keeps fun f => f.state.Lacks place where
  position f hf := ((Reserved.keeps hp).position f (.refl f.state)).lacks hf
  handOut plan done delivered scratch f hf :=
    ((Reserved.keeps hp).handOut plan done delivered scratch f (.refl f.state)).lacks hf
  note event f hevent hf := ((Reserved.keeps (n := n) hp).note event f hevent (.refl f.state)).lacks hf

/-- A step without callbacks uses no scratch; it may open one, in a place of its own. -/
theorem plainly_reserved {step : Step} (h : Plainly n s step t) : Reserved s t := by
  cases h with
  | kept => exact .refl s
  | @wrote bytes ring source =>
    have hset : Reserved s { s with source := .ring (ring.write bytes) } := Reserved.same (.refl s) rfl rfl rfl
    exact hset.note rfl
  | @opened _ _ _ drain lt =>
    have hset : Reserved s { s with drains := s.drains.push (some drain) } := Reserved.same (.refl s) rfl rfl rfl
    exact hset.note rfl
  | reset | closed | sink | limited | taken => exact Reserved.same (.refl s) rfl rfl rfl
  | scratch opened =>
    refine ⟨fun i hi => ?_, id, id⟩
    have hlt := (Array.getElem?_eq_some_iff.mp hi).1
    rw [Array.getElem?_push_lt hlt, ← hi, Array.getElem?_eq_getElem hlt]

/-- A step leaves scratches in use alone if the steps of its callbacks do. -/
theorem playStep_reserves (hp : Reserves player) (budget : Nat) : Reserves (playStep player budget) := by
  intro step s
  have hstart : Reserved s { s with clock := s.clock + 1 } := Reserved.same (.refl s) rfl rfl rfl
  cases hcalls : step.calls with
  | false => exact hstart.trans (plainly_reserved (playStep_plainly player budget hcalls s))
  | true =>
    unfold playStep
    cases step with
    | transfer d k name => exact hstart.trans (Reserved.transfer hp _ budget d k name)
    | deliver start len k name sizes => exact hstart.trans (Reserved.deliver hp _ start len k name sizes)
    | feed k bytes => exact hstart.trans (Reserved.feed hp _ k bytes)
    | _ => cases hcalls

/-- Every step leaves scratches in use alone. -/
theorem play_reserves (budget : Nat) : Reserves (play budget) := by
  induction budget with
  | zero => exact fun _ s => .refl s
  | succ budget ih => exact playStep_reserves ih (budget + 1)

theorem playAll_reserves (budget : Nat) (steps : List Step) (s : State) : Reserved s (playAll budget steps s).2 :=
  playAll_keeps (fun step _ t ht => ht.trans (play_reserves budget step t)) (.refl s)

end PagedRing.Session
