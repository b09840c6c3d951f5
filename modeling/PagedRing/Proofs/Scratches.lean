import PagedRing.Proofs.Account
import PagedRing.Proofs.Blind
import PagedRing.Proofs.Lending

/-!
# What scratches have to do with deliveries

Nothing but speed: what a scratch held before shows neither in the chunks nor in the outcome of a delivery, and
afterwards it holds the last whole page that was copied. This is so in all surroundings, those of a session included, in
which callbacks write to the source and start deliveries with other scratches.

* `Oblivious`: a delivery in any surroundings.
* `Session.Indifferent`: sessions in states that differ in the content of scratches only.
* `scratches_do_not_matter`: all deliveries and all sessions.
-/

namespace PagedRing

/-! ## Deliveries -/

/-- What a scratch has to do with a delivery. -/
structure Oblivious {σ : Type} (host : Host σ) (g : Geometry) (start len : Nat) (s : σ) : Prop where
  /-- With any two scratches the outcome is the same, and so is what the surroundings saw: they may have written down
  every call. -/
  same : ∀ scratch scratch', (host.deliver g start len scratch' s).1 = (host.deliver g start len scratch s).1 ∧
    (host.deliver g start len scratch' s).2.2 = (host.deliver g start len scratch s).2.2
  /-- If the range is refused, the scratch is as before. -/
  refused : g.capacity ≤ start ∨ g.capacity < len → ∀ scratch, (host.deliver g start len scratch s).2.1 = scratch
  /-- Otherwise it holds the last whole page that was copied. -/
  fills : start < g.capacity → len ≤ g.capacity → ∀ scratch, ∃ served tried,
    host.Fills g start len scratch s served tried (host.deliver g start len scratch s)

theorem oblivious {σ : Type} (host : Host σ) (g : Geometry) (start len : Nat) (s : σ) :
    Oblivious host g start len s := by
  refine ⟨fun scratch scratch' => ?_, fun hrefused scratch => ?_, fun hstart hlen scratch =>
    host.deliver_fills hstart hlen scratch s⟩
  · obtain ⟨houtcome, hstate, -⟩ := (Host.Alike.refl host).deliver g start len scratch scratch' (rfl : s = s)
    exact ⟨houtcome, hstate.symm⟩
  · rcases Nat.lt_or_ge start g.capacity with hstart | hstart
    · rw [host.deliver_of_tooLong hstart (hrefused.resolve_left (Nat.not_le.mpr hstart))]
    · rw [host.deliver_of_outside hstart]

/-! ## Sessions -/

namespace Session

/-- What scratches have to do with the steps of a session, if `t` differs from `s` in their content only. -/
structure Indifferent (budget : Nat) (steps : List Step) (s t : State) : Prop where
  /-- The answers differ at most where they show the content of a scratch, and the logs do not differ. -/
  answers : (playAll budget steps t).1.map Played.wiped = (playAll budget steps s).1.map Played.wiped
  /-- What is left differs in the content of scratches only. -/
  states : (playAll budget steps s).2.Alike (playAll budget steps t).2
  /-- At any depth, a chunk that is offered is cut from the page that the source has at that moment. -/
  cut : (∀ e ∈ s.journal, e.Cut) → ∀ e ∈ (playAll budget steps s).2.journal, e.Cut
  /-- A transfer or a delivery takes its scratch out of its place. -/
  taken : ∀ (mode : DrainMode) (r : State) (name : Option Nat), r.hasScratch name = true →
    (r.lend (mode.scratchPlace name r)).2.Lacks (mode.scratchPlace name r) ∧
      (r.lend (.ofName name)).2.Lacks (.ofName name)
  /-- That place is empty for all steps that callbacks play then. -/
  lent : ∀ n place, (host (play budget) n).Keeps fun f => f.state.Lacks place
  /-- They leave it so. -/
  lacks : ∀ place step r, State.Lacks r place → (play budget step r).2.Lacks place
  /-- A transfer that names no scratch, while another one uses the shared one, gets a new one and leaves none. -/
  fresh : ∀ r : State, r.Lacks .shared → r.scratchPlace none = .nowhere ∧ r.lend .nowhere = (.empty, r) ∧
    ∀ scratch, r.giveBack .nowhere scratch = r

theorem indifferent (budget : Nat) (steps : List Step) {s t : State} (h : s.Alike t) : Indifferent budget steps s t where
  answers := (playAll_blind budget steps h).1
  states := (playAll_blind budget steps h).2
  cut := (playAll_reserves budget steps s).cut
  taken mode _ _ hr := ⟨(mode.has_scratchPlace hr).lend, (State.has_ofName hr).lend⟩
  lent _ place := keeps_lacks (play_reserves budget) place
  lacks _ step r hr := (play_reserves budget step r).lacks hr
  fresh r hr := by
    have hshared : r.shared = none := hr
    refine ⟨?_, rfl, fun _ => rfl⟩
    rw [State.scratchPlace, hshared]
    rfl

end Session

/-- Scratches matter neither to deliveries, whatever their surroundings, nor to sessions. -/
theorem scratches_do_not_matter {σ : Type} (host : Host σ) (g : Geometry) (start len : Nat) (surroundings : σ)
    (budget : Nat) (steps : List Session.Step) {s t : Session.State} (h : s.Alike t) :
    Oblivious host g start len surroundings ∧ Session.Indifferent budget steps s t :=
  ⟨oblivious host g start len surroundings, Session.indifferent budget steps h⟩

namespace Session

/-- Four pages of four bytes each. -/
def fourPages : Geometry := ⟨16, 4, by decide, by decide, by decide⟩

/-- A session before its first step. -/
def untouched : State := .initial fourPages (.ring (.zeros fourPages)) []

/-- The same session with something left in the scratch of transfers that name none. -/
def leftover : State := { untouched with shared := some ((Scratch.zeros 9).load 5 [91, 92, 93, 94, 95]) }

/-- Ten bytes are written and delivered. At its first chunk the sink writes six more, some of them to a page that is still
to be fetched, and lets the same drain deliver these to another sink meanwhile. -/
def reentrant : List Step := [
  .write [10, 11, 12, 13, 14, 15, 16, 17, 18, 19],
  .openDrain .concurrent none none,
  .openSink .chunks [.play 0 (.write [20, 21, 22, 23, 24, 25]) false, .play 0 (.transfer 0 1 none) false],
  .openSink .chunks [],
  .transfer 0 0 none]

end Session

/-- A transfer that is entered again at its first chunk, with a scratch that holds something and with one that does
not. -/
theorem scratches_do_not_matter_reentrant :
    Session.untouched.Alike Session.leftover ∧
    (Oblivious (Session.host (Session.play 3) 7) Session.fourPages 2 9 (.enter Session.untouched default) ∧
      Session.Indifferent 4 Session.reentrant Session.untouched Session.leftover) ∧
    ((Session.playAll 4 Session.reentrant Session.leftover).2.sink? 0).map (fun sink => sink.kept.toList) =
      some [[10, 11, 12, 13], [14, 15, 16, 17], [18, 19]] ∧
    ((Session.playAll 4 Session.reentrant Session.leftover).2.sink? 1).map (fun sink => sink.kept.toList) =
      some [[20, 21], [22, 23, 24, 25]] ∧
    (Session.playAll 4 Session.reentrant Session.leftover).2.shared.map Scratch.bytes = some [14, 15, 16, 17] := by
  have halike : Session.untouched.Alike Session.leftover := rfl
  refine ⟨halike, ?_, by decide +kernel, by decide +kernel, by decide +kernel⟩
  exact scratches_do_not_matter (Session.host (Session.play 3) 7) Session.fourPages 2 9
    (.enter Session.untouched default) 4 Session.reentrant halike

end PagedRing
