import PagedRing.Proofs.Consumers
import PagedRing.Proofs.Keeping
import PagedRing.Proofs.Runs

/-!
# Sinks that transfers tend

A sink that is handed chunks by transfers only stands, between two of them, as its history says, whatever its callbacks
play. While a transfer uses it, no other step can reach it.

* `Step.Spares`: a step that leaves a sink to transfers, its scripts included.
* `Tended`: what is known of a sink while steps are played; `Tends`: a player that keeps it so.
* `Undisturbed`: what a running step knows survives its callbacks.
* `Beside.keeps`: what a step knows that does not use the sink.
-/

namespace PagedRing

theorem Event.of_aloof {event : Event} (h : event.aloof = true) : event.sink? = none ∧ event.tells = false := by
  cases event <;> first | exact ⟨rfl, rfl⟩ | cases h

namespace Session

/-! ## Steps that leave a sink to transfers -/

mutual

/-- Whether a step leaves a sink to transfers, and so do all steps of its scripts. -/
def Step.Spares (k : Nat) : Step → Prop
  | .feed sink _ => sink ≠ k
  | .deliver _ _ sink _ _ => sink ≠ k
  | .openSink _ script => Script.Spares k script
  | _ => True

/-- Whether the step of a cue leaves a sink to transfers. -/
def Cue.Spares (k : Nat) : Cue → Prop
  | .fail _ _ => True
  | .play _ step _ => step.Spares k

/-- Whether all steps of a script leave a sink to transfers. -/
def Script.Spares (k : Nat) : List Cue → Prop
  | [] => True
  | cue :: rest => cue.Spares k ∧ Script.Spares k rest

end

theorem Script.spares_iff {k : Nat} {script : Script} : Script.Spares k script ↔ ∀ cue ∈ script, cue.Spares k := by
  induction script with
  | nil => simp [Script.Spares]
  | cons cue script ih => rw [Script.Spares, ih, List.forall_mem_cons]

theorem Script.Spares.filter {k : Nat} {script : Script} (h : Script.Spares k script) (p : Cue → Bool) :
    Script.Spares k (script.filter p) :=
  Script.spares_iff.mpr fun cue hcue => Script.spares_iff.mp h cue (List.mem_of_mem_filter hcue)

/-! ## What is known between steps -/

/-- What is known of a sink while steps are played that leave it to transfers. -/
structure Tended (k : Nat) (s : State) : Prop where
  older : ∀ e ∈ s.past, e.step < s.clock
  script : Script.Spares k s.script
  scripts : ∀ (j : Nat) sink, s.sinks[j]? = some (some sink) → Script.Spares k sink.script
  unopened : s.sinks[k]? = none → ∀ e ∈ s.past, e.event.sink? ≠ some k
  finished : ∀ sink, s.sinks[k]? = some (some sink) → ∀ n, sinkOf n s.past = some k → Over n s.past
  standing : ∀ sink, s.sinks[k]? = some (some sink) → Standing k sink s.past

/-- What steps add to a state: entries of new steps, which do not begin to use a sink that is in use. -/
structure Adds (k : Nat) (s t : State) : Prop where
  clock : s.clock ≤ t.clock
  past : ∃ new, t.past = new ++ s.past ∧
    ∀ e ∈ new, s.clock ≤ e.step ∧ (s.sinks[k]? = some none → e.event.sink? ≠ some k)
  shut : s.sinks[k]? = some none → t.sinks[k]? = some none

/-- Whether each step that leaves a sink to transfers keeps it tended. -/
def Tends (k : Nat) (player : Player) : Prop :=
  ∀ step s, step.Spares k → Tended k s → Tended k (player step s).2 ∧ Adds k s (player step s).2

variable {k n m : Nat} {s s₀ t u : State} {player : Player} {event : Event} {p : List Entry → Prop}

theorem Adds.refl (s : State) : Adds k s s := ⟨Nat.le_refl _, ⟨[], rfl, nofun⟩, id⟩

theorem Adds.trans (h : Adds k s t) (h' : Adds k t u) : Adds k s u := by
  obtain ⟨new, hnew, hold⟩ := h.past
  obtain ⟨new', hnew', hold'⟩ := h'.past
  refine ⟨Nat.le_trans h.clock h'.clock, ⟨new' ++ new, by rw [hnew', hnew, List.append_assoc], ?_⟩,
    fun hs => h'.shut (h.shut hs)⟩
  intro e he
  rcases List.mem_append.mp he with he | he
  · exact ⟨Nat.le_trans h.clock (hold' e he).1, fun hs => (hold' e he).2 (h.shut hs)⟩
  · exact hold e he

/-- What is known of a sink in use survives what others add. -/
theorem Adds.known (h : Adds k s t) (hs : Tended k s) (hout : s.sinks[k]? = some none) (hp : Local k p)
    (hknown : p s.past) : p t.past := by
  obtain ⟨new, hnew, hold⟩ := h.past
  rw [hnew]
  refine hp.append (fun e he => ⟨(hold e he).2 hout, fun e' he' => ?_⟩) hknown
  have := hs.older e' he'
  have := (hold e he).1
  omega

/-- A step that runs already has done nothing meanwhile. -/
theorem Adds.sinkOf (h : Adds k s t) (hn : n < s.clock) : sinkOf n t.past = sinkOf n s.past := by
  obtain ⟨new, hnew, hold⟩ := h.past
  rw [hnew, Session.sinkOf, Session.sinkOf, deeds_append fun e he => by have := (hold e he).1; omega]

/-- An event of a running step. -/
theorem Adds.note (h : Adds k s₀ s) (hn : s₀.clock ≤ n) (hb : s₀.sinks[k]? = some none → event.sink? ≠ some k) :
    Adds k s₀ (s.note n event) := by
  obtain ⟨new, hnew, hold⟩ := h.past
  refine ⟨h.clock, ⟨⟨n, event, s.drains, s.source⟩ :: new, ?_, List.forall_mem_cons.mpr ⟨⟨hn, hb⟩, hold⟩⟩, h.shut⟩
  rw [State.past_note, hnew, List.cons_append]

/-- What the history and the sinks do not speak of does not matter. -/
theorem Adds.same (h : Adds k s₀ s) (hp : t.past = s.past) (hs : t.sinks[k]? = s.sinks[k]?) (hc : s.clock ≤ t.clock) :
    Adds k s₀ t :=
  ⟨Nat.le_trans h.clock hc, by rw [hp]; exact h.past, fun hs₀ => by rw [hs]; exact h.shut hs₀⟩

namespace Tended

/-- A state with the same history and the same sink. -/
theorem same (h : Tended k s) (hp : t.past = s.past) (hs : t.sinks[k]? = s.sinks[k]?) (hc : s.clock ≤ t.clock)
    (hscript : Script.Spares k t.script)
    (hscripts : ∀ (j : Nat) sink, t.sinks[j]? = some (some sink) → Script.Spares k sink.script) : Tended k t where
  older e he := Nat.lt_of_lt_of_le (h.older e (hp ▸ he)) hc
  script := hscript
  scripts := hscripts
  unopened hnone := by rw [hs] at hnone; rw [hp]; exact h.unopened hnone
  finished sink hsink := by rw [hs] at hsink; rw [hp]; exact h.finished sink hsink
  standing sink hsink := by rw [hs] at hsink; rw [hp]; exact h.standing sink hsink

/-- An event that is none of the sink's. -/
theorem note (h : Tended k s) (hn : n < s.clock) (hf : Foreign k ⟨n, event, s.drains, s.source⟩ s.past) :
    Tended k (s.note n event) where
  older := by
    rw [State.past_note]
    exact List.forall_mem_cons.mpr ⟨hn, h.older⟩
  script := h.script
  scripts := h.scripts
  unopened hnone := by
    rw [State.past_note]
    exact List.forall_mem_cons.mpr ⟨hf.2, h.unopened hnone⟩
  finished sink hsink m hm := by
    rw [State.past_note] at hm ⊢
    exact (h.finished sink hsink m (hf.sinkOf_iff.mp hm)).cons
  standing sink hsink := by
    rw [State.past_note]
    exact local_standing k sink _ _ hf (h.standing sink hsink)

/-- An event while the sink is in use. -/
theorem note_out (h : Tended k s) (hn : n < s.clock) (hout : s.sinks[k]? = some none) : Tended k (s.note n event) where
  older := by
    rw [State.past_note]
    exact List.forall_mem_cons.mpr ⟨hn, h.older⟩
  script := h.script
  scripts := h.scripts
  unopened hnone := absurd (hout.symm.trans hnone) nofun
  finished sink hsink := absurd (hout.symm.trans hsink) nofun
  standing sink hsink := absurd (hout.symm.trans hsink) nofun

end Tended

/-! ## Callbacks -/

/-- Whether callbacks of a step do not invalidate what is known of the state. -/
structure Undisturbed (k : Nat) (X : State → Prop) : Prop where
  tended : ∀ {s}, X s → Tended k s
  later : ∀ {s t}, X s → Tended k t → Adds k s t → X t
  same : ∀ {s t}, X s → t.past = s.past → t.sinks = s.sinks → t.clock = s.clock → Script.Spares k t.script → X t

/-- What a step knows of the state and of the sink that it uses itself. -/
def Aware (k : Nat) (X : State → Prop) (f : Frame) : Prop := X f.state ∧ Script.Spares k f.sink.script

namespace Undisturbed

variable {X : State → Prop} {f : Frame}

theorem playCues (h : Undisturbed k X) (hp : Tends k player) {script : Script} (hscript : Script.Spares k script)
    {answers : Array Answer} (hs : X s) : X (playCues player script answers s).2.2 := by
  refine playCues_keeps ?_ answers hs
  intro call step passOn hmem s hs
  have hstep : Cue.Spares k (.play call step passOn) := Script.spares_iff.mp hscript _ hmem
  rw [Cue.Spares] at hstep
  obtain ⟨ht, hadds⟩ := hp step s hstep (h.tended hs)
  exact h.later hs ht hadds

theorem offer (h : Undisturbed k X) (hp : Tends k player) (item : Bytes) (hf : Aware k X f) :
    Aware k X (f.offer player item).2 := by
  have hplayed : X (Session.playCues player (f.sink.script.due f.sink.calls) f.answers f.state).2.2 :=
    h.playCues hp (hf.2.filter _) hf.1
  unfold Frame.offer
  dsimp only
  split <;> · next heq => rw [heq] at hplayed; exact ⟨hplayed, hf.2.filter _⟩

theorem readPosition (h : Undisturbed k X) (hp : Tends k player)
    (hprompted : ∀ {s} cues, X s → X (s.note n (.prompted cues))) (hf : Aware k X f) :
    Aware k X (f.readPosition player n).2 := by
  have hscript := (h.tended hf.1).script
  have hs : X { f.state with script := f.state.script.later f.state.reads, reads := f.state.reads + 1 } :=
    h.same hf.1 rfl rfl rfl (hscript.filter _)
  unfold Frame.readPosition
  dsimp only
  refine ⟨h.playCues hp (hscript.filter _) ?_, hf.2⟩
  split
  · exact hs
  · exact hprompted _ hs

end Undisturbed

/-! ## Steps beside the sink -/

/-- What a step knows that does not use the sink. -/
structure Beside (k n : Nat) (s₀ s : State) : Prop where
  tended : Tended k s
  adds : Adds k s₀ s
  first : s₀.clock ≤ n
  clock : n < s.clock
  other : sinkOf n s.past ≠ some k

theorem Beside.note (h : Beside k n s₀ s) (event : Event) (hb : event.sink? ≠ some k) :
    Beside k n s₀ (s.note n event) := by
  have hf : Foreign k ⟨n, event, s.drains, s.source⟩ s.past := ⟨h.other, hb⟩
  refine ⟨h.tended.note h.clock hf, h.adds.note h.first fun _ => hb, h.first, h.clock, ?_⟩
  rw [State.past_note]
  exact fun heq => h.other (hf.sinkOf_iff.mp heq)

/-- A state with the same history and the same sink. -/
theorem Beside.same (h : Beside k n s₀ s) (hp : t.past = s.past) (hs : t.sinks[k]? = s.sinks[k]?)
    (hc : t.clock = s.clock) (hscript : Script.Spares k t.script)
    (hscripts : ∀ (j : Nat) sink, t.sinks[j]? = some (some sink) → Script.Spares k sink.script) : Beside k n s₀ t :=
  ⟨h.tended.same hp hs (Nat.le_of_eq hc.symm) hscript hscripts, h.adds.same hp hs (Nat.le_of_eq hc.symm), h.first,
    hc ▸ h.clock, hp ▸ h.other⟩

theorem Beside.undisturbed : Undisturbed k (Beside k n s₀) where
  tended h := h.tended
  later h ht ha :=
    ⟨ht, h.adds.trans ha, h.first, Nat.lt_of_lt_of_le h.clock ha.clock, by rw [ha.sinkOf h.clock]; exact h.other⟩
  same h hp hs hc hscript := h.same hp (by rw [hs]) hc hscript (by rw [hs]; exact h.tended.scripts)

/-- A step that uses another sink keeps what it knows. -/
theorem Beside.keeps (hp : Tends k player) : (host player n).Keeps (Aware k (Beside k n s₀)) where
  position _ hf := Beside.undisturbed.readPosition hp (fun _ hs => hs.note _ nofun) hf
  handOut := Host.handOut_keeps (fun _ _ hf => hf)
    (fun bytes _ hf => Frame.accept_keeps (fun item _ hf => Beside.undisturbed.offer hp item hf)
      (fun _ _ hf => ⟨hf.1.note _ nofun, hf.2⟩) (fun _ _ hf => hf) bytes hf)
    (fun _ _ _ hf _ => ⟨hf.1.note _ nofun, hf.2⟩) (fun _ _ _ hf => ⟨hf.1.note _ nofun, hf.2⟩)
    (fun _ _ _ _ _ _ hf => ⟨hf.1.note _ nofun, hf.2⟩)
  note _ _ ha hf := ⟨hf.1.note _ (by rw [(Event.of_aloof ha).1]; nofun), hf.2⟩

end Session

end PagedRing
