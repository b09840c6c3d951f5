import PagedRing.Session.Play

/-!
# Steps without callbacks

What a step that plays no callbacks may make of the state. It says once what each of these steps changes; what runs keep
goes by it and opens none of the steps.

* `Plainly`: the states that such a step may leave.
* `playStep_plainly`: it leaves one of them.
-/

namespace PagedRing.Session

/-- Whether a step hands chunks to a sink, which plays callbacks. -/
def Step.calls : Step → Bool
  | .transfer _ _ _ | .deliver _ _ _ _ _ | .feed _ _ => true
  | _ => false

/-- What a step without callbacks makes of a state, given its number. -/
inductive Plainly (n : Nat) (s : State) : Step → State → Prop
  /-- It only looks, or it is refused. -/
  | kept {step : Step} : Plainly n s step s
  | wrote {bytes : Bytes} {ring : Ring} (source : s.source = .ring ring) :
      Plainly n s (.write bytes) (State.note { s with source := .ring (ring.write bytes) } n (.wrote bytes))
  /-- A source that is no ring may be set. -/
  | reset {step : Step} {pages : Array Bytes} {position : Nat} (source : s.source = .table pages position)
      (source' : Source) : Plainly n s step { s with source := source' }
  | opened {kind : DrainKind} {cursor : Option Nat} {sizes : Option Sizes} {drain : Drain}
      (lt : drain.cursor < drain.geometry.capacity) :
      Plainly n s (.openDrain kind cursor sizes)
        (State.note { s with drains := s.drains.push (some drain) } n (.opened s.drains.size drain.cursor))
  | closed {d : Nat} {drain : Drain} (place : s.drain? d = some drain) (mode : drain.mode ≠ .concurrent) :
      Plainly n s (.closeDrain d) (s.setDrain d none)
  | scratch {size : Option Nat} (scratch : Scratch) :
      Plainly n s (.openScratch size) { s with scratches := s.scratches.push (some scratch) }
  | sink (kind : SinkKind) (script : Script) : Plainly n s (.openSink kind script) (s.openSink kind script).2
  | limited {sink limit : Nat} {framer : LineFramer} {script : Script} {calls : Nat} {kept : Array Bytes}
      (place : s.sink? sink = some ⟨.lines framer, script, calls, kept⟩) :
      Plainly n s (.setLimit sink limit)
        (s.setSink sink (some ⟨.lines (framer.limited limit), script, calls, kept⟩))
  | taken {index : Nat} {sink : Sink} (place : s.sink? index = some sink) :
      Plainly n s (.takePending index) (s.setSink index none)

/-- A drain stands where it was opened. -/
theorem Drain.of_new {kind : DrainKind} {g : Geometry} {cursor : Nat} {drain : Drain}
    (h : Drain.new kind g cursor = .ok drain) : drain.cursor = cursor ∧ drain.geometry = g := by
  unfold Drain.new at h
  split at h
  · cases hs : Scratch.ofSize g.pageSize with
    | error fault => rw [hs] at h; cases h
    | ok scratch => rw [hs] at h; cases h; exact ⟨rfl, rfl⟩
  · cases h
    exact ⟨rfl, rfl⟩

/-- A position that a ring accepts lies in it. -/
theorem Geometry.lt_of_position? {g : Geometry} {position accepted : Nat} (h : g.position? position = .ok accepted) :
    accepted < g.capacity := by
  unfold Geometry.position? at h
  split at h
  · next hcontains =>
    cases h
    exact g.contains_iff.mp hcontains
  · cases h

theorem openDrain_plainly (s : State) (n : Nat) (kind : DrainKind) (cursor : Option Nat) (sizes : Option Sizes) :
    Plainly n s (.openDrain kind cursor sizes) (s.openDrain n kind cursor sizes).2 := by
  unfold State.openDrain
  split
  · exact .kept
  · next g hg =>
    split
    · exact .kept
    · next cursor' hcursor =>
      split
      · exact .kept
      · next drain hdrain =>
        obtain ⟨rfl, rfl⟩ := Drain.of_new hdrain
        exact .opened (Geometry.lt_of_position? hcursor)

/-- A step without callbacks does one of these things. -/
theorem playStep_plainly (player : Player) (budget : Nat) {step : Step} (h : step.calls = false) (s : State) :
    Plainly s.clock { s with clock := s.clock + 1 } step (playStep player budget step s).2 := by
  unfold playStep
  cases step with
  | transfer | deliver | feed => cases h
  | write bytes =>
    simp only [plain, State.write, Ring.append_eq_write]
    split
    · next ring hring => exact .wrote hring
    · exact .kept
  | summary | sizes =>
    dsimp only
    split <;> exact .kept
  | setPosition position =>
    simp only [plain, State.setPosition]
    split
    · exact .kept
    · next hsource => exact .reset (s := { s with clock := s.clock + 1 }) hsource _
  | setPage number bytes =>
    simp only [plain, State.setPage]
    split
    · exact .kept
    · next hsource =>
      split
      · exact .reset (s := { s with clock := s.clock + 1 }) hsource _
      · exact .kept
  | position | page | inspect | kept | malformed => exact .kept
  | openDrain kind cursor sizes => exact openDrain_plainly _ _ kind cursor sizes
  | closeDrain d =>
    simp only [plain, State.closeDrain]
    split
    · next hplace => exact .closed hplace DrainMode.noConfusion
    · exact .kept
  | openScratch size =>
    simp only [plain, State.openScratch]
    split
    · exact .kept
    · exact .scratch _
  | openSink kind script => exact .sink kind script
  | setLimit sink limit =>
    simp only [plain, State.setLimit]
    split
    · next hplace => exact .limited hplace
    · exact .kept
  | takePending sink =>
    simp only [plain, State.takePending]
    split
    · next hplace => exact .taken hplace
    · exact .kept

end PagedRing.Session
