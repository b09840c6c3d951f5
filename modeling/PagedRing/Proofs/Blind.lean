import PagedRing.Proofs.Wiping
import PagedRing.Session.Play

/-!
# Steps do not go by the content of scratches

Played in states that differ in what their scratches hold, and in nothing else, a step has the same answer, whatever its
callbacks play, except that an answer may show the content of a scratch; and it leaves states that differ in nothing
else. So whole sessions go the same way.

* `transfer_alike`, `deliver_alike`, `feed_alike`: steps that play callbacks.
* `playStep_blind`, `play_blind`: every step.
* `playAll_blind`: whole sessions, with their logs.
-/

namespace PagedRing.Session

variable {player : Player}

/-! ## Steps with callbacks -/

/-- The reply to a transfer shows of its scratch no more than the content. -/
theorem Reply.wiped_ofOutcome (outcome : Except Halt Transfer) (got : List Bytes) (place : ScratchPlace)
    (scratch scratch' : Scratch) (cursor : Option Nat) :
    (Reply.ofOutcome outcome got (place.shown scratch') cursor).wiped =
      (Reply.ofOutcome outcome got (place.shown scratch) cursor).wiped := by
  unfold Reply.ofOutcome
  cases place <;> rcases outcome with (cause | cause | ⟨⟩) | report <;> rfl

/-- What transfers leave behind that differ in the content of scratches only. -/
structure Leftover.Alike (left left' : Leftover) : Prop where
  outcome : left'.outcome = left.outcome
  cursor : left'.cursor = left.cursor
  frame : left.frame.Alike left'.frame

/-- The answer to a transfer and the state after it, from what it leaves behind. -/
theorem Leftover.Alike.ended {left left' : Leftover} (h : left.Alike left') (count n k : Nat) (place : ScratchPlace) :
    (Answer.mk (.ofOutcome left'.outcome (left'.frame.sink.keptSince count) (place.shown left'.scratch)
        (some left'.cursor)) left'.frame.answers.toList).wiped =
      (Answer.mk (.ofOutcome left.outcome (left.frame.sink.keptSince count) (place.shown left.scratch)
        (some left.cursor)) left.frame.answers.toList).wiped ∧
    (((left.frame.state.giveBack place left.scratch).setSink k (some left.frame.sink)).note n
        (.ended left.outcome)).Alike
      (((left'.frame.state.giveBack place left'.scratch).setSink k (some left'.frame.sink)).note n
        (.ended left'.outcome)) := by
  rw [h.outcome, h.cursor, h.frame.sink, Answer.wiped, Answer.wiped, h.frame.answers,
    Reply.wiped_ofOutcome _ _ place left.scratch left'.scratch]
  exact ⟨rfl, ((h.frame.state.giveBack place _ _).setSink k _).note n _⟩

theorem transferSequential_alike (hp : Blind player) {f f' : Frame} (h : f.Alike f') (n d : Nat) {drain drain' : Drain}
    (hg : drain'.geometry = drain.geometry) (hc : drain'.cursor = drain.cursor) (own own' scratch scratch' : Scratch) :
    (transferSequential player n d drain own scratch f).Alike (transferSequential player n d drain' own' scratch' f') := by
  have hlent : Frame.Alike { f with state := f.state.setDrain d none } { f' with state := f'.state.setDrain d none } :=
    ⟨h.state.setDrain d rfl, h.sink, h.answers⟩
  have htransfer := (alike_host hp n).sequential drain.geometry drain.cursor own own' hlent
  unfold transferSequential
  rw [hg, hc]
  revert htransfer
  dsimp only
  generalize Sequential.transfer (host player n) drain.geometry drain.cursor own _ = result
  generalize Sequential.transfer (host player n) drain.geometry drain.cursor own' _ = result'
  obtain ⟨outcome, cursor, own, f⟩ := result
  obtain ⟨outcome', cursor', own', f'⟩ := result'
  rintro ⟨houtcome, hcursor, hframe, -⟩
  obtain rfl : outcome' = outcome := houtcome
  obtain rfl : cursor' = cursor := hcursor
  exact ⟨rfl, rfl, hframe.state.setDrain d rfl, hframe.sink, hframe.answers⟩

theorem load_alike {f f' : Frame} (h : f.Alike f') (d : Nat) : (cursorCell d).load f' = (cursorCell d).load f := by
  simp only [cursorCell]
  rcases h.state.drain? d with ⟨hf, hf'⟩ | ⟨drain, drain', hf, hf', hwiped⟩
  · rw [hf, hf']
  · rw [hf, hf']
    exact (Drain.of_wiped_eq hwiped).2.1

theorem store_alike {f f' : Frame} (h : f.Alike f') (d position : Nat) :
    ((cursorCell d).store position f).Alike ((cursorCell d).store position f') := by
  have hmap : ∀ drains : Array (Option Drain),
      (drains.modify d (Option.map fun drain => { drain with cursor := position })).map (Option.map Drain.wiped) =
        (drains.map (Option.map Drain.wiped)).modify d (Option.map fun drain => { drain with cursor := position }) := by
    intro drains
    refine Array.ext (by simp) fun i hi hi' => ?_
    simp only [Array.getElem_map, Array.getElem_modify]
    split
    · rw [Option.map_map, Option.map_map]
      refine congrArg (fun change => Option.map change _) (funext fun drain => ?_)
      obtain ⟨g, cursor, mode⟩ := drain
      cases mode <;> rfl
    · rfl
  refine ⟨?_, h.sink, h.answers⟩
  have hstate := congrArg (fun s : State => { s with
    drains := s.drains.modify d (Option.map fun drain => { drain with cursor := position }) }) h.state.wiped_eq
  simp only [State.wiped, ← hmap] at hstate
  exact hstate

theorem transferConcurrent_alike (hp : Blind player) {f f' : Frame} (h : f.Alike f') (budget n d : Nat)
    {drain drain' : Drain} (hg : drain'.geometry = drain.geometry) (scratch scratch' : Scratch) :
    (transferConcurrent player budget n d drain scratch f).Alike
      (transferConcurrent player budget n d drain' scratch' f') := by
  have hload : ∀ {f f' : Frame}, f.Alike f' → (cursorCell d).load f' = (cursorCell d).load f :=
    fun hf => load_alike hf d
  have htransfer := (alike_host hp n).concurrent hload (fun position hf => store_alike hf d position) drain.geometry
    budget scratch scratch' h
  unfold transferConcurrent
  rw [hg]
  revert htransfer
  generalize Concurrent.transfer (host player n) (cursorCell d) drain.geometry budget scratch f = result
  generalize Concurrent.transfer (host player n) (cursorCell d) drain.geometry budget scratch' f' = result'
  obtain ⟨outcome, scratch, f⟩ := result
  obtain ⟨outcome', scratch', f'⟩ := result'
  rintro ⟨houtcome, hframe, -⟩
  exact ⟨houtcome, load_alike hframe d, hframe⟩

variable {s t : State}

theorem transfer_alike (hp : Blind player) (h : s.Alike t) (budget n d k : Nat) (name : Option Nat) :
    (transfer player budget n d k name t).1.wiped = (transfer player budget n d k name s).1.wiped ∧
      (transfer player budget n d k name s).2.Alike (transfer player budget n d k name t).2 := by
  unfold transfer
  rw [h.sink? k, h.hasScratch name]
  rcases h.drain? d with ⟨hs, ht⟩ | ⟨drain, drain', hs, ht, hwiped⟩
  · rw [hs, ht]
    exact ⟨rfl, h⟩
  · rw [hs, ht]
    obtain ⟨hg, hc, hmode⟩ := Drain.of_wiped_eq hwiped
    rcases s.sink? k with _ | sink
    · exact ⟨rfl, h⟩
    rcases s.hasScratch name with _ | _
    · exact ⟨rfl, h⟩
    have hbegun : ∀ place, Frame.Alike (.enter (((s.note n (.began d k)).setSink k none).lend place).2 sink)
        (.enter (((t.note n (.began d k)).setSink k none).lend place).2 sink) :=
      fun place => ⟨((h.note n (.began d k)).setSink k none).lend place, rfl, rfl⟩
    dsimp only
    -- both drains are of the same sort, so their scratches have the same place
    rcases hmode with ⟨own, own', hown, hown'⟩ | ⟨hshared, hshared'⟩
    · rw [hown, hown']
      exact (transferSequential_alike hp (hbegun _) n d hg hc own own' _ _).ended sink.kept.size n k _
    · rw [hshared, hshared']
      dsimp only [DrainMode.scratchPlace]
      rw [h.scratchPlace name]
      exact (transferConcurrent_alike hp (hbegun _) budget n d hg _ _).ended sink.kept.size n k _

theorem geometryOf_alike (h : s.Alike t) (sizes : Option Sizes) : t.geometryOf sizes = s.geometryOf sizes :=
  h.same (State.geometryOf · sizes) fun _ => rfl

theorem deliver_alike (hp : Blind player) (h : s.Alike t) (n start len k : Nat) (name : Option Nat)
    (sizes : Option Sizes) :
    (deliver player n start len k name sizes t).1.wiped = (deliver player n start len k name sizes s).1.wiped ∧
      (deliver player n start len k name sizes s).2.Alike (deliver player n start len k name sizes t).2 := by
  unfold deliver
  rw [geometryOf_alike h, h.sink? k, h.hasScratch name]
  split
  · exact ⟨rfl, h⟩
  · next g _ =>
    split
    · next sink _ _ =>
      have hdeliver := (alike_host hp n).deliver g start len ((s.setSink k none).lend (.ofName name)).1
        ((t.setSink k none).lend (.ofName name)).1
        (s := Frame.enter ((s.setSink k none).lend (.ofName name)).2 sink)
        (t := Frame.enter ((t.setSink k none).lend (.ofName name)).2 sink) ⟨(h.setSink k none).lend _, rfl, rfl⟩
      revert hdeliver
      dsimp only
      generalize (host player n).deliver g start len _ (Frame.enter ((s.setSink k none).lend _).2 sink) = result
      generalize (host player n).deliver g start len _ (Frame.enter ((t.setSink k none).lend _).2 sink) = result'
      obtain ⟨outcome, scratch, f⟩ := result
      obtain ⟨outcome', scratch', f'⟩ := result'
      rintro ⟨houtcome, hframe, -⟩
      obtain rfl : outcome' = outcome := houtcome
      dsimp only at hframe ⊢
      rw [hframe.sink, Answer.wiped, Answer.wiped, hframe.answers, Reply.wiped_ofOutcome _ _ _ scratch scratch']
      exact ⟨rfl, (hframe.state.giveBack _ _ _).setSink k _⟩
    · exact ⟨rfl, h⟩

theorem feed_alike (hp : Blind player) (h : s.Alike t) (n k : Nat) (bytes : Bytes) :
    (feed player n k bytes t).1.wiped = (feed player n k bytes s).1.wiped ∧
      (feed player n k bytes s).2.Alike (feed player n k bytes t).2 := by
  unfold feed
  rw [h.sink? k]
  split
  · exact ⟨rfl, h⟩
  · next sink _ =>
    have hentered : (Frame.enter (s.setSink k none) sink).Alike (Frame.enter (t.setSink k none) sink) :=
      ⟨h.setSink k none, rfl, rfl⟩
    have haccept := Frame.Alike.accept hp hentered n bytes
    revert haccept
    generalize (Frame.enter (s.setSink k none) sink).accept player n bytes = fed
    generalize (Frame.enter (t.setSink k none) sink).accept player n bytes = fed'
    obtain ⟨outcome, f⟩ := fed
    obtain ⟨outcome', f'⟩ := fed'
    rintro ⟨houtcome, hframe⟩
    obtain rfl : outcome' = outcome := houtcome
    dsimp only at hframe ⊢
    rw [hframe.sink, Answer.wiped, Answer.wiped, hframe.answers]
    exact ⟨rfl, hframe.state.setSink k _⟩

/-! ## Steps without callbacks -/

theorem setSource_alike (h : s.Alike t) (source : Source) : State.Alike { s with source } { t with source } :=
  h.congr (fun r => { r with source }) fun _ => rfl

theorem write_alike (h : s.Alike t) (n : Nat) (bytes : Bytes) :
    (t.write n bytes).1 = (s.write n bytes).1 ∧ (s.write n bytes).2.Alike (t.write n bytes).2 := by
  unfold State.write
  simp only [h.source, Ring.append_eq_write]
  split
  · exact ⟨rfl, (setSource_alike h _).note n _⟩
  · exact ⟨rfl, h⟩

theorem setPosition_alike (h : s.Alike t) (position : Nat) :
    (t.setPosition position).1 = (s.setPosition position).1 ∧
      (s.setPosition position).2.Alike (t.setPosition position).2 := by
  unfold State.setPosition
  rw [h.source]
  split
  · exact ⟨rfl, h⟩
  · exact ⟨rfl, setSource_alike h _⟩

theorem setPage_alike (h : s.Alike t) (number : Nat) (bytes : Bytes) :
    (t.setPage number bytes).1 = (s.setPage number bytes).1 ∧
      (s.setPage number bytes).2.Alike (t.setPage number bytes).2 := by
  unfold State.setPage
  rw [h.source]
  split
  · exact ⟨rfl, h⟩
  · split
    · exact ⟨rfl, setSource_alike h _⟩
    · exact ⟨rfl, h⟩

theorem openDrain_alike (h : s.Alike t) (n : Nat) (kind : DrainKind) (cursor : Option Nat) (sizes : Option Sizes) :
    (t.openDrain n kind cursor sizes).1 = (s.openDrain n kind cursor sizes).1 ∧
      (s.openDrain n kind cursor sizes).2.Alike (t.openDrain n kind cursor sizes).2 := by
  have hdrains : t.drains.map (Option.map Drain.wiped) = s.drains.map (Option.map Drain.wiped) :=
    congrArg State.drains h.wiped_eq
  have hsize : t.drains.size = s.drains.size := by simpa using congrArg Array.size hdrains
  have hpush : ∀ drain, State.Alike { s with drains := s.drains.push drain } { t with drains := t.drains.push drain } := by
    intro drain
    have := congrArg (fun s : State => { s with drains := s.drains.push (drain.map Drain.wiped) }) h.wiped_eq
    simp only [State.wiped, ← Array.map_push] at this
    exact this
  unfold State.openDrain
  rw [geometryOf_alike h]
  split
  · exact ⟨rfl, h⟩
  · split
    · exact ⟨rfl, h⟩
    · split
      · exact ⟨rfl, h⟩
      · rw [hsize]
        exact ⟨rfl, (hpush _).note n _⟩

theorem inspect_alike (h : s.Alike t) (d : Nat) : t.inspect d = s.inspect d := by
  unfold State.inspect
  rcases h.drain? d with ⟨hs, ht⟩ | ⟨drain, drain', hs, ht, hwiped⟩
  · rw [hs, ht]
  · obtain ⟨hg, hc, -⟩ := Drain.of_wiped_eq hwiped
    rw [hs, ht]
    dsimp only
    rw [hg, hc, h.source]

theorem closeDrain_alike (h : s.Alike t) (d : Nat) :
    (t.closeDrain d).1 = (s.closeDrain d).1 ∧ (s.closeDrain d).2.Alike (t.closeDrain d).2 := by
  unfold State.closeDrain
  rcases h.drain? d with ⟨hs, ht⟩ | ⟨drain, drain', hs, ht, hwiped⟩
  · rw [hs, ht]
    exact ⟨rfl, h⟩
  · rw [hs, ht]
    obtain ⟨g, cursor, mode⟩ := drain
    obtain ⟨g', cursor', mode'⟩ := drain'
    rcases (Drain.of_wiped_eq hwiped).2.2 with ⟨own, own', hown, hown'⟩ | ⟨hshared, hshared'⟩
    · obtain rfl : mode = .sequential own := hown
      obtain rfl : mode' = .sequential own' := hown'
      dsimp only
      rw [h.source]
      exact ⟨rfl, h.setDrain d rfl⟩
    · obtain rfl : mode = .concurrent := hshared
      obtain rfl : mode' = .concurrent := hshared'
      exact ⟨rfl, h⟩

theorem openScratch_alike (h : s.Alike t) (size : Option Nat) :
    (t.openScratch size).1 = (s.openScratch size).1 ∧ (s.openScratch size).2.Alike (t.openScratch size).2 := by
  have hscratches : t.scratches.map (Option.map fun _ => Scratch.empty) =
      s.scratches.map (Option.map fun _ => Scratch.empty) := congrArg State.scratches h.wiped_eq
  have hsize : t.scratches.size = s.scratches.size := by simpa using congrArg Array.size hscratches
  unfold State.openScratch
  split
  · exact ⟨rfl, h⟩
  · next scratch _ =>
    rw [hsize]
    refine ⟨rfl, ?_⟩
    have := congrArg (fun s : State => { s with scratches := s.scratches.push (some .empty) }) h.wiped_eq
    simp only [State.wiped] at this
    simp only [State.Alike, State.wiped, Array.map_push, Option.map_some]
    exact this

theorem openSink_alike (h : s.Alike t) (kind : SinkKind) (script : Script) :
    (t.openSink kind script).1 = (s.openSink kind script).1 ∧
      (s.openSink kind script).2.Alike (t.openSink kind script).2 := by
  constructor
  · exact h.same (fun r => (r.openSink kind script).1) fun _ => rfl
  · exact h.congr (fun r => (r.openSink kind script).2) fun _ => rfl

theorem setLimit_alike (h : s.Alike t) (k limit : Nat) :
    (t.setLimit k limit).1 = (s.setLimit k limit).1 ∧ (s.setLimit k limit).2.Alike (t.setLimit k limit).2 := by
  unfold State.setLimit
  rw [h.sink? k]
  split
  · exact ⟨rfl, h.setSink k _⟩
  · exact ⟨rfl, h⟩

theorem takePending_alike (h : s.Alike t) (k : Nat) :
    (t.takePending k).1 = (s.takePending k).1 ∧ (s.takePending k).2.Alike (t.takePending k).2 := by
  unfold State.takePending
  rw [h.sink? k]
  split
  · exact ⟨rfl, h.setSink k _⟩
  · exact ⟨rfl, h⟩

/-! ## All steps -/

theorem plain_alike {played played' : Reply × State} (h : played'.1 = played.1 ∧ played.2.Alike played'.2) :
    (plain played').1.wiped = (plain played).1.wiped ∧ (plain played).2.Alike (plain played').2 := by
  obtain ⟨reply, s⟩ := played
  obtain ⟨reply', t⟩ := played'
  obtain ⟨rfl, hstate⟩ := h
  exact ⟨rfl, hstate⟩

/-- A step does not go by the content of scratches if the steps of its callbacks do not. -/
theorem playStep_blind (hp : Blind player) (budget : Nat) : Blind (playStep player budget) := by
  intro step s t h
  have hclock : t.clock = s.clock := h.same State.clock fun _ => rfl
  have hnext : State.Alike { s with clock := s.clock + 1 } { t with clock := s.clock + 1 } :=
    h.congr (fun r => { r with clock := s.clock + 1 }) fun _ => rfl
  unfold playStep
  rw [hclock]
  dsimp only
  generalize { s with clock := s.clock + 1 } = s', { t with clock := s.clock + 1 } = t' at hnext
  cases step with
  | write bytes => exact plain_alike (write_alike hnext _ bytes)
  | summary | sizes =>
    dsimp only
    rw [h.source]
    split <;> exact ⟨rfl, hnext⟩
  | setPosition position => exact plain_alike (setPosition_alike hnext position)
  | setPage number bytes => exact plain_alike (setPage_alike hnext number bytes)
  | position =>
    dsimp only
    rw [h.source]
    exact ⟨rfl, hnext⟩
  | page number =>
    dsimp only [State.page]
    rw [hnext.source]
    exact ⟨rfl, hnext⟩
  | openDrain kind cursor sizes => exact plain_alike (openDrain_alike hnext _ kind cursor sizes)
  | inspect d =>
    dsimp only
    rw [inspect_alike hnext]
    exact ⟨rfl, hnext⟩
  | closeDrain d => exact plain_alike (closeDrain_alike hnext d)
  | openScratch size => exact plain_alike (openScratch_alike hnext size)
  | openSink kind script => exact plain_alike (openSink_alike hnext kind script)
  | transfer d k name => exact transfer_alike hp hnext budget _ d k name
  | deliver start len k name sizes => exact deliver_alike hp hnext _ start len k name sizes
  | feed k bytes => exact feed_alike hp hnext _ k bytes
  | kept k =>
    dsimp only [State.kept]
    rw [hnext.sink? k]
    exact ⟨rfl, hnext⟩
  | setLimit k limit => exact plain_alike (setLimit_alike hnext k limit)
  | takePending k => exact plain_alike (takePending_alike hnext k)
  | malformed => exact ⟨rfl, hnext⟩

/-- No step goes by the content of scratches, whatever its callbacks play. -/
theorem play_blind (budget : Nat) : Blind (play budget) := by
  induction budget with
  | zero => exact fun _ _ _ h => ⟨rfl, h⟩
  | succ budget ih => exact playStep_blind ih (budget + 1)

/-- What was played, without the content of scratches. -/
def Played.wiped (played : Played) : Played := { played with answer := played.answer.wiped }

/-- The lines of the log since a moment do not go by the content of scratches. -/
theorem log_alike {s s' t t' : State} (h : s.Alike t) (h' : s'.Alike t') :
    ((t'.journal.extract t.journal.size t'.journal.size).toList.filterMap fun e => e.event.logLine?) =
      (s'.journal.extract s.journal.size s'.journal.size).toList.filterMap fun e => e.event.logLine? := by
  have hjournal : ∀ {s t : State}, s.Alike t → t.journal.map Entry.wiped = s.journal.map Entry.wiped :=
    fun h => congrArg State.journal h.wiped_eq
  have hsize : ∀ {s t : State}, s.Alike t → t.journal.size = s.journal.size := fun h => by
    simpa using congrArg Array.size (hjournal h)
  have hlog : ∀ entries : Array Entry, (entries.toList.filterMap fun e => e.event.logLine?) =
      (entries.map Entry.wiped).toList.filterMap fun e => e.event.logLine? := fun entries => by
    rw [Array.toList_map, List.filterMap_map]
    rfl
  rw [hlog (t'.journal.extract t.journal.size t'.journal.size), hlog (s'.journal.extract s.journal.size s'.journal.size),
    Array.map_extract, Array.map_extract, hjournal h', hsize h, hsize h']

/-- No session goes by the content of scratches. -/
theorem playAll_blind (budget : Nat) (steps : List Step) {s t : State} (h : s.Alike t) :
    (playAll budget steps t).1.map Played.wiped = (playAll budget steps s).1.map Played.wiped ∧
      (playAll budget steps s).2.Alike (playAll budget steps t).2 := by
  induction steps generalizing s t with
  | nil => exact ⟨rfl, h⟩
  | cons step rest ih =>
    obtain ⟨hanswer, hplayed⟩ := play_blind budget step h
    obtain ⟨hmore, hend⟩ := ih hplayed
    have hlog := log_alike h hplayed
    refine ⟨?_, hend⟩
    unfold playAll
    dsimp only
    rw [List.map_cons, List.map_cons, hmore, hlog]
    exact congrArg (fun answer => Played.mk answer _ :: _) hanswer

end PagedRing.Session
