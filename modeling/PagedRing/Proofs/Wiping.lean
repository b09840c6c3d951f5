import PagedRing.Proofs.Alike
import PagedRing.Session.Frame

/-!
# States without the content of their scratches

Two states of a session that differ in what their scratches hold, and in nothing else. If the steps of callbacks go the
same way in both, so do the callbacks themselves, and the surroundings of deliveries answer alike.

* `State.wiped`, `Answer.wiped`: a state and an answer without the content of scratches.
* `State.Alike`, `Frame.Alike`: states that differ in that content only.
* `Blind`: steps that are played alike in such states.
* `playCues_alike`, `alike_host`: callbacks, and the surroundings of deliveries.
-/

namespace PagedRing.Session

/-! ## Wiped states -/

/-- A drain without the content of its scratch. -/
def Drain.wiped (drain : Drain) : Drain :=
  match drain.mode with
  | .sequential _ => { drain with mode := .sequential .empty }
  | .concurrent => drain

/-- An entry of the journal without the content of scratches. -/
def Entry.wiped (e : Entry) : Entry := { e with drains := e.drains.map (Option.map Drain.wiped) }

/-- A state in which all scratches are empty, also those that the journal has seen. -/
def State.wiped (s : State) : State :=
  { s with
    drains := s.drains.map (Option.map Drain.wiped)
    scratches := s.scratches.map (Option.map fun _ => .empty)
    shared := s.shared.map fun _ => .empty
    journal := s.journal.map Entry.wiped }

/-- A reply that does not show the content of the scratch. -/
def Reply.wiped : Reply → Reply
  | .transferred result got shown cursor => .transferred result got (shown.map fun _ => []) cursor
  | reply => reply

mutual

/-- An answer that does not show the content of scratches. -/
def Answer.wiped : Answer → Answer
  | .mk reply nested => .mk reply.wiped (Answer.wipedAll nested)

/-- Answers that do not show the content of scratches. -/
def Answer.wipedAll : List Answer → List Answer
  | [] => []
  | answer :: rest => answer.wiped :: Answer.wipedAll rest

end

@[simp] theorem Answer.wipedAll_append (a b : List Answer) : wipedAll (a ++ b) = wipedAll a ++ wipedAll b := by
  induction a with
  | nil => rfl
  | cons answer a ih => rw [List.cons_append, wipedAll, ih, wipedAll, List.cons_append]

@[simp] theorem Reply.failure?_wiped (reply : Reply) : reply.wiped.failure? = reply.failure? := by
  cases reply with
  | transferred result => cases result <;> rfl
  | _ => rfl

theorem Answer.failure?_congr {a b : Answer} (h : a.wiped = b.wiped) : a.reply.failure? = b.reply.failure? := by
  obtain ⟨reply, nested⟩ := a
  obtain ⟨reply', nested'⟩ := b
  rw [wiped, wiped, Answer.mk.injEq] at h
  have := congrArg Reply.failure? h.1
  rwa [Reply.failure?_wiped, Reply.failure?_wiped] at this

/-- Drains that differ in the content of their scratches only. -/
theorem Drain.of_wiped_eq {drain drain' : Drain} (h : drain'.wiped = drain.wiped) :
    drain'.geometry = drain.geometry ∧ drain'.cursor = drain.cursor ∧
      ((∃ own own', drain.mode = .sequential own ∧ drain'.mode = .sequential own') ∨
        drain.mode = .concurrent ∧ drain'.mode = .concurrent) := by
  obtain ⟨g, cursor, mode⟩ := drain
  obtain ⟨g', cursor', mode'⟩ := drain'
  cases mode with
  | sequential own =>
    cases mode' with
    | sequential own' =>
      cases h
      exact ⟨rfl, rfl, .inl ⟨own, own', rfl, rfl⟩⟩
    | concurrent => cases h
  | concurrent =>
    cases mode' with
    | sequential own' => cases h
    | concurrent =>
      cases h
      exact ⟨rfl, rfl, .inr ⟨rfl, rfl⟩⟩

namespace State

variable (s : State)

@[simp] theorem wiped_note (n : Nat) (event : Event) : (s.note n event).wiped = s.wiped.note n event := by
  simp only [wiped, note, Array.map_push]
  rfl

@[simp] theorem wiped_setDrain (d : Nat) (drain : Option Drain) :
    (s.setDrain d drain).wiped = s.wiped.setDrain d (drain.map Drain.wiped) := by
  simp only [wiped, setDrain, Array.map_setIfInBounds]

@[simp] theorem wiped_setSink (k : Nat) (sink : Option Sink) : (s.setSink k sink).wiped = s.wiped.setSink k sink := rfl

theorem wiped_drain? (d : Nat) : s.wiped.drain? d = (s.drain? d).map Drain.wiped := by
  simp only [wiped, drain?, Array.getElem?_map]
  cases s.drains[d]? <;> rfl

theorem wiped_scratch? (index : Nat) : s.wiped.scratch? index = (s.scratch? index).map fun _ => .empty := by
  simp only [wiped, scratch?, Array.getElem?_map]
  cases s.scratches[index]? <;> rfl

@[simp] theorem wiped_hasScratch (name : Option Nat) : s.wiped.hasScratch name = s.hasScratch name := by
  cases name with
  | none => rfl
  | some index => simp only [hasScratch, wiped_scratch?, Option.isSome_map]

theorem wiped_scratchPlace (name : Option Nat) : s.wiped.scratchPlace name = s.scratchPlace name := by
  cases name with
  | none => simp only [scratchPlace, wiped, Option.isSome_map]
  | some index => rfl

theorem wiped_lend (place : ScratchPlace) : (s.lend place).2.wiped = (s.wiped.lend place).2 := by
  cases place with
  | named index => simp only [lend, wiped, Array.map_setIfInBounds, Option.map_none]
  | shared => rfl
  | nowhere => rfl

theorem wiped_giveBack (place : ScratchPlace) (scratch : Scratch) :
    (s.giveBack place scratch).wiped = s.wiped.giveBack place .empty := by
  cases place with
  | named index => simp only [giveBack, wiped, Array.map_setIfInBounds, Option.map_some]
  | shared => rfl
  | nowhere => rfl

end State

/-! ## States that differ in scratches only -/

/-- States that differ in the content of scratches only. -/
def State.Alike (s t : State) : Prop := t.wiped = s.wiped

namespace State.Alike

variable {s t : State}

theorem refl (s : State) : s.Alike s := rfl

theorem wiped_eq (h : s.Alike t) : t.wiped = s.wiped := h

/-- What does not go by the content of scratches is the same in both. -/
theorem same {α : Type} (h : s.Alike t) (look : State → α) (hlook : ∀ r, look r.wiped = look r) :
    look t = look s := by
  rw [← hlook t, h.wiped_eq, hlook s]

/-- A change that does not go by the content of scratches keeps them alike. -/
theorem congr (h : s.Alike t) (change : State → State) (hchange : ∀ r, (change r).wiped = change r.wiped) :
    (change s).Alike (change t) := by
  rw [Alike, hchange, hchange, h]

theorem source (h : s.Alike t) : t.source = s.source := h.same State.source fun _ => rfl

/-- A drain of one of them is a drain of the other, which differs in its own scratch only. -/
theorem drain? (h : s.Alike t) (d : Nat) :
    (s.drain? d = none ∧ t.drain? d = none) ∨
      ∃ drain drain', s.drain? d = some drain ∧ t.drain? d = some drain' ∧ drain'.wiped = drain.wiped := by
  have hmap : (t.drain? d).map Drain.wiped = (s.drain? d).map Drain.wiped := by
    rw [← wiped_drain?, ← wiped_drain?, h]
  cases hs : s.drain? d with
  | none =>
    rw [hs] at hmap
    exact .inl ⟨rfl, Option.map_eq_none_iff.mp hmap⟩
  | some drain =>
    rw [hs] at hmap
    obtain ⟨drain', hdrain', hwiped⟩ := Option.map_eq_some_iff.mp hmap
    exact .inr ⟨drain, drain', rfl, hdrain', hwiped⟩

theorem sink? (h : s.Alike t) (k : Nat) : t.sink? k = s.sink? k := h.same (State.sink? · k) fun _ => rfl

theorem hasScratch (h : s.Alike t) (name : Option Nat) : t.hasScratch name = s.hasScratch name :=
  h.same (State.hasScratch · name) fun r => r.wiped_hasScratch name

theorem scratchPlace (h : s.Alike t) (name : Option Nat) : t.scratchPlace name = s.scratchPlace name :=
  h.same (State.scratchPlace · name) fun r => r.wiped_scratchPlace name

theorem note (h : s.Alike t) (n : Nat) (event : Event) : (s.note n event).Alike (t.note n event) :=
  h.congr (State.note · n event) fun r => r.wiped_note n event

theorem setSink (h : s.Alike t) (k : Nat) (sink : Option Sink) : (s.setSink k sink).Alike (t.setSink k sink) :=
  h.congr (State.setSink · k sink) fun r => r.wiped_setSink k sink

theorem setDrain (h : s.Alike t) (d : Nat) {drain drain' : Option Drain}
    (hdrain : drain'.map Drain.wiped = drain.map Drain.wiped) : (s.setDrain d drain).Alike (t.setDrain d drain') := by
  rw [Alike, wiped_setDrain, wiped_setDrain, h, hdrain]

theorem lend (h : s.Alike t) (place : ScratchPlace) : (s.lend place).2.Alike (t.lend place).2 :=
  h.congr (fun r => (r.lend place).2) fun r => r.wiped_lend place

theorem giveBack (h : s.Alike t) (place : ScratchPlace) (scratch scratch' : Scratch) :
    (s.giveBack place scratch).Alike (t.giveBack place scratch') := by
  rw [Alike, wiped_giveBack, wiped_giveBack, h]

end State.Alike

/-- Frames that differ in the content of scratches only. -/
structure Frame.Alike (f f' : Frame) : Prop where
  state : f.state.Alike f'.state
  sink : f'.sink = f.sink
  answers : Answer.wipedAll f'.answers.toList = Answer.wipedAll f.answers.toList

/-- Steps are played without regard to the content of scratches. -/
def Blind (player : Player) : Prop := ∀ step {s t : State}, s.Alike t →
  (player step t).1.wiped = (player step s).1.wiped ∧ (player step s).2.Alike (player step t).2

variable {player : Player}

/-! ## Callbacks -/

theorem playCues_alike (hp : Blind player) (cues : Script) {answers answers' : Array Answer} {s t : State}
    (ha : Answer.wipedAll answers'.toList = Answer.wipedAll answers.toList) (h : s.Alike t) :
    (playCues player cues answers' t).1 = (playCues player cues answers s).1 ∧
      Answer.wipedAll (playCues player cues answers' t).2.1.toList =
        Answer.wipedAll (playCues player cues answers s).2.1.toList ∧
      (playCues player cues answers s).2.2.Alike (playCues player cues answers' t).2.2 := by
  induction cues generalizing answers answers' s t with
  | nil => exact ⟨rfl, ha, h⟩
  | cons cue rest ih =>
    cases cue with
    | fail call cause => exact ⟨rfl, ha, h⟩
    | play call step passOn =>
      obtain ⟨hanswer, hplayed⟩ := hp step h
      simp only [playCues]
      generalize player step s = played at hanswer hplayed ⊢
      generalize player step t = played' at hanswer hplayed ⊢
      obtain ⟨answer, s⟩ := played
      obtain ⟨answer', t⟩ := played'
      have hanswers : Answer.wipedAll (answers'.push answer').toList = Answer.wipedAll (answers.push answer).toList := by
        rw [Array.toList_push, Array.toList_push, Answer.wipedAll_append, Answer.wipedAll_append, ha]
        exact congrArg (_ ++ [·]) hanswer
      dsimp only
      rw [Answer.failure?_congr hanswer]
      cases passOn with
      | false => exact ih hanswers hplayed
      | true =>
        cases answer.reply.failure? with
        | none => exact ih hanswers hplayed
        | some cause => exact ⟨rfl, hanswers, hplayed⟩

namespace Frame.Alike

variable {f f' : Frame}

theorem note (h : f.Alike f') (n : Nat) (event : Event) : (f.note n event).Alike (f'.note n event) :=
  ⟨h.state.note n event, h.sink, h.answers⟩

theorem readPosition (hp : Blind player) (h : f.Alike f') (n : Nat) :
    (f'.readPosition player n).1 = (f.readPosition player n).1 ∧
      (f.readPosition player n).2.Alike (f'.readPosition player n).2 := by
  have hreads : f'.state.reads = f.state.reads := h.state.same State.reads fun _ => rfl
  have hscript : f'.state.script = f.state.script := h.state.same State.script fun _ => rfl
  unfold Frame.readPosition
  dsimp only
  rw [hreads, hscript]
  have hstate : ∀ later reads, State.Alike { f.state with script := later, reads }
      { f'.state with script := later, reads } := by
    intro later reads
    exact h.state.congr (fun s => { s with script := later, reads }) fun _ => rfl
  generalize f.state.script.due f.state.reads = due
  generalize f.state.script.later f.state.reads = later
  have hprompted : State.Alike
      (if due.isEmpty then { f.state with script := later, reads := f.state.reads + 1 }
        else State.note { f.state with script := later, reads := f.state.reads + 1 } n (.prompted due.length))
      (if due.isEmpty then { f'.state with script := later, reads := f.state.reads + 1 }
        else State.note { f'.state with script := later, reads := f.state.reads + 1 } n (.prompted due.length)) := by
    split
    · exact hstate _ _
    · exact (hstate _ _).note _ _
  obtain ⟨-, hanswers, hplayed⟩ := playCues_alike hp due h.answers hprompted
  exact ⟨congrArg Source.position hplayed.source, hplayed, h.sink, hanswers⟩

theorem offer (hp : Blind player) (h : f.Alike f') (item : Bytes) :
    (f'.offer player item).1 = (f.offer player item).1 ∧ (f.offer player item).2.Alike (f'.offer player item).2 := by
  have hplay := playCues_alike hp (f.sink.script.due f.sink.calls) h.answers h.state
  unfold Frame.offer
  dsimp only
  rw [h.sink]
  revert hplay
  generalize playCues player (f.sink.script.due f.sink.calls) f.answers f.state = played
  generalize playCues player (f.sink.script.due f.sink.calls) f'.answers f'.state = played'
  obtain ⟨outcome, answers, s⟩ := played
  obtain ⟨outcome', answers', t⟩ := played'
  rintro ⟨houtcome, hanswers, hplayed⟩
  obtain rfl : outcome' = outcome := houtcome
  cases outcome' with
  | ok => exact ⟨rfl, hplayed, rfl, hanswers⟩
  | error cause => exact ⟨rfl, hplayed, rfl, hanswers⟩

theorem accept (hp : Blind player) (h : f.Alike f') (n : Nat) (bytes : Bytes) :
    (f'.accept player n bytes).1 = (f.accept player n bytes).1 ∧
      (f.accept player n bytes).2.Alike (f'.accept player n bytes).2 := by
  unfold Frame.accept
  rw [h.sink]
  split
  · exact h.offer hp bytes
  · next framer _ =>
    have hfeed := LineFramer.feed_alike (R := Frame.Alike)
      (fun line _ _ hf => (hf.note n (.line line)).offer hp line) framer bytes h
    revert hfeed
    generalize framer.feed (fun line f => (f.note n (.line line)).offer player line) bytes f = fed
    generalize framer.feed (fun line f => (f.note n (.line line)).offer player line) bytes f' = fed'
    obtain ⟨outcome, framer, f⟩ := fed
    obtain ⟨outcome', framer', f'⟩ := fed'
    rintro ⟨houtcome, hframer, hfed⟩
    obtain rfl : outcome' = outcome := houtcome
    obtain rfl : framer' = framer := hframer
    refine ⟨rfl, hfed.state, ?_, hfed.answers⟩
    dsimp only
    rw [hfed.sink]

end Frame.Alike

/-- The surroundings of deliveries in states that differ in scratches only. -/
theorem alike_host (hp : Blind player) (n : Nat) : (host player n).Alike (host player n) Frame.Alike where
  position h := h.readPosition hp n
  fetch number h := ⟨congrArg (Source.page · number) h.state.source, h⟩
  accept bytes h := h.accept hp n bytes
  note event _ h := h.note n event

end PagedRing.Session
