import PagedRing.Proofs.Keeping
import PagedRing.Proofs.Orderly

/-!
# Steps under way

A step that is under way may be interrupted by callbacks, whose steps may do anything that an orderly session does.
What such a step knows of the state is `Steady` if callbacks do not invalidate it: then it survives a callback, however
deep the steps of its cues nest.

* `Steady.playCues`, `Steady.accept`: what is steady survives callbacks.
* `Underway`: what every step under way knows; `Running`: what a transfer knows besides, its deeds so far included.
* `Running.steady`: what a transfer knows is steady.
* `Running.note`, `Running.claimed`: what a transfer may do next.
-/

namespace PagedRing.Session

/-- What steps leave of a state: it is orderly, what they add comes after what was there, and no transfer is left
unfinished. -/
def Leaves (origin : Source) (s t : State) : Prop := Orderly origin t ∧ Extends s t ∧ Settled s.clock t

/-- Nothing is unfinished of steps that are still to come. -/
theorem Leaves.refl {origin : Source} {s : State} (h : Orderly origin s) : Leaves origin s s := by
  refine ⟨h, .refl s, ?_⟩
  intro m hm hd
  refine absurd ?_ hd
  show drainOf m s.past = none
  rw [drainOf, deeds_eq_nil fun e he heq => by have := h.older e he; omega]
  rfl

theorem Leaves.trans {origin : Source} {s t u : State} (h : Leaves origin s t) (h' : Leaves origin t u) :
    Leaves origin s u := by
  obtain ⟨-, he, hsettled⟩ := h
  obtain ⟨ho, he', hsettled'⟩ := h'
  exact ⟨ho, he.trans he', hsettled.extends he' hsettled'⟩

/-- Whether each step leaves an orderly state as it should. -/
def Sound (origin : Source) (player : Player) : Prop :=
  ∀ step s, Orderly origin s → Leaves origin s (player step s).2

/-- Whether callbacks of a step do not invalidate what is known of the state. -/
structure Steady (origin : Source) (n : Nat) (P : State → Prop) : Prop where
  orderly : ∀ {s}, P s → Orderly origin s
  later : ∀ {s t}, P s → Orderly origin t → Extends s t → Settled s.clock t → P t
  line : ∀ {s} bytes, P s → P (s.note n (.line bytes))
  same : ∀ {s t}, P s → t.past = s.past → t.drains = s.drains → t.source = s.source → t.clock = s.clock → P t

/-! ## Callbacks -/

namespace Steady

variable {origin : Source} {player : Player} {n : Nat} {P : State → Prop} {f : Frame}

theorem playCues (h : Steady origin n P) (hp : Sound origin player) (script : Script) {answers : Array Answer}
    {s : State} (hs : P s) : P (playCues player script answers s).2.2 := by
  refine playCues_keeps ?_ answers hs
  intro call step passOn _ s hs
  obtain ⟨ho, he, hsettled⟩ := hp step s (h.orderly hs)
  exact h.later hs ho he hsettled

theorem offer (h : Steady origin n P) (hp : Sound origin player) (item : Bytes) (hf : P f.state) :
    P (f.offer player item).2.state := by
  rw [Frame.state_offer]
  exact h.playCues hp _ hf

/-- What is steady survives a chunk that is handed to the sink. -/
theorem accept (h : Steady origin n P) (hp : Sound origin player) (bytes : Bytes) (hf : P f.state) :
    P (f.accept player n bytes).2.state :=
  Frame.accept_keeps (P := fun f => P f.state) (fun item _ hf => h.offer hp item hf) (fun line _ hf => h.line line hf)
    (fun _ _ hf => hf) bytes hf

end Steady

/-! ## Every step -/

/-- What a step under way knows, given the state in which it was about to start. -/
structure Underway (origin : Source) (s₀ : State) (n : Nat) (s : State) : Prop where
  orderly : Orderly origin s
  since : Extends s₀ s
  settled : Settled (n + 1) s
  first : s₀.clock ≤ n
  clock : n < s.clock

/-- What a step that transfers for no drain knows. -/
structure Bystander (origin : Source) (s₀ : State) (n : Nat) (s : State) : Prop extends Underway origin s₀ n s where
  drainOf : drainOf n s.past = none

section

variable {origin : Source} {s₀ s t : State} {n d : Nat} {event : Event}

theorem Underway.onward (h : Underway origin s₀ n s) (ht : Orderly origin t) (he : Extends s t)
    (hs : Settled s.clock t) : Underway origin s₀ n t :=
  ⟨ht, h.since.trans he, h.settled.extends he hs, h.first, Nat.lt_of_lt_of_le h.clock he.clock⟩

theorem Underway.same (h : Underway origin s₀ n s) (hp : t.past = s.past) (hd : t.drains = s.drains)
    (hs : t.source = s.source) (hc : t.clock = s.clock) : Underway origin s₀ n t := by
  obtain ⟨new, hnew, hold⟩ := h.since.past
  refine ⟨h.orderly.same hp hd hs (Nat.le_of_eq hc.symm), ⟨?_, ⟨new, ?_, hold⟩, ?_⟩, ?_, h.first, ?_⟩
  · rw [hc]; exact h.since.clock
  · rw [hp, hnew]
  · rw [hd]; exact h.since.shut
  · unfold Settled; rw [hp]; exact h.settled
  · rw [hc]; exact h.clock

/-- An event of the step itself. -/
theorem Underway.cons (h : Underway origin s₀ n s) (ht : Orderly origin t) {drains : Array (Option Drain)}
    {source : Source} (hp : t.past = ⟨n, event, drains, source⟩ :: s.past) (hc : t.clock = s.clock)
    (hd : ∀ d : Nat, s₀.drains[d]? = some none → t.drains[d]? = some none)
    (hb : ∀ d : Nat, s₀.drains[d]? = some none → event.drain? ≠ some d) : Underway origin s₀ n t := by
  obtain ⟨new, hnew, hold⟩ := h.since.past
  refine ⟨ht, ⟨?_, ⟨⟨n, event, drains, source⟩ :: new, ?_, ?_⟩, hd⟩, ?_, h.first, ?_⟩
  · rw [hc]; exact h.since.clock
  · rw [hp, hnew, List.cons_append]
  · exact List.forall_mem_cons.mpr ⟨⟨h.first, hb⟩, hold⟩
  · intro m hm hdm
    have hmn : n ≠ m := by omega
    rw [hp] at hdm ⊢
    rw [drainOf_of_ne hmn] at hdm
    exact (h.settled m hm hdm).cons
  · rw [hc]; exact h.clock

/-- An event of the step that leaves the drains and the source alone. -/
theorem Underway.note (h : Underway origin s₀ n s) (hq : event.quiet = true) (hb : event.drain? = none)
    (ha : Allowed s.past ⟨n, event, s.drains, s.source⟩) : Underway origin s₀ n (s.note n event) :=
  h.cons (h.orderly.note h.clock hq hb ha) (State.past_note s n event) rfl h.since.shut
    fun d _ => by rw [hb]; exact nofun

/-- What a bystander knows is steady. -/
theorem Bystander.steady : Steady origin n (Bystander origin s₀ n) where
  orderly h := h.orderly
  later h ho he hs := ⟨h.toUnderway.onward ho he hs, by rw [he.drainOf h.clock]; exact h.drainOf⟩
  line bytes h :=
    ⟨h.toUnderway.note rfl rfl trivial, by rw [State.past_note, drainOf_of_drain? rfl]; exact h.drainOf⟩
  same h hp hd hs hc := ⟨h.toUnderway.same hp hd hs hc, by rw [hp]; exact h.drainOf⟩

/-- What a bystander does to its sink is no deed of a transfer. -/
theorem Bystander.note (h : Bystander origin s₀ n s) (hq : event.quiet = true) (hb : event.drain? = none) :
    Bystander origin s₀ n (s.note n event) := by
  have hd := h.drainOf
  refine ⟨h.toUnderway.note hq hb ?_, by rw [State.past_note, drainOf_of_drain? hb]; exact hd⟩
  have hnone : ∀ d drain, Session.drainOf n s.past = some d → opened? d s.past = some drain →
      Course (event :: deeds n s.past) ∧ Truthful d drain s.past ⟨n, event, s.drains, s.source⟩ := by
    intro d drain hd'
    rw [hd] at hd'
    cases hd'
  cases event with
  | opened | wrote | claimed | ended => cases hq
  | began => cases hb
  | line => trivial
  | _ => exact hnone

end

/-! ## Transfers -/

/-- What a running transfer knows: its drain as it was opened, and its deeds so far. A drain that is not shared is out
of reach of all others, who leave its cursor alone. -/
structure Running (origin : Source) (s₀ : State) (n d : Nat) (drain : Drain) (ds : List Event) (s : State) : Prop
    extends Underway origin s₀ n s where
  drainOf : drainOf n s.past = some d
  opened : opened? d s.past = some drain
  deeds : deeds n s.past = ds
  unended : ∀ outcome, Event.ended outcome ∉ ds
  reach : ∀ d' : Nat, s₀.drains[d']? = some none → d' ≠ d
  own : drain.mode ≠ .concurrent → s.drains[d]? = some none ∧ settledTo d s.past = settledTo d s₀.past ∧
    ∀ m, Session.drainOf m s.past = some d → m = n ∨ Over m s.past

namespace Running

variable {origin : Source} {s₀ s t : State} {n d : Nat} {drain : Drain} {ds : List Event} {event : Event}

/-- The deeds of a running transfer follow a course. -/
theorem course (h : Running origin s₀ n d drain ds s) : Course ds := by
  rw [← h.deeds]
  exact h.orderly.lawful.course h.drainOf

/-- What a transfer knows after an event that leaves the drains and the source alone. -/
theorem next (h : Running origin s₀ n d drain ds s) {es : List Event} (hq : event.quiet = true)
    (hb : event.drain? = none) (ha : Allowed s.past ⟨n, event, s.drains, s.source⟩)
    (hd : Session.deeds n (s.note n event).past = es) (hu : ∀ outcome, Event.ended outcome ∉ es) :
    Running origin s₀ n d drain es (s.note n event) := by
  refine ⟨h.toUnderway.note hq hb ha, ?_, ?_, hd, hu, h.reach, fun hm => ?_⟩
  · rw [State.past_note, drainOf_of_drain? hb]; exact h.drainOf
  · rw [State.past_note, opened?_quiet hq]; exact h.opened
  · obtain ⟨hdrain, hset, hover⟩ := h.own hm
    refine ⟨hdrain, ?_, fun m hdm => ?_⟩
    · rw [State.past_note, settledTo_quiet hq]; exact hset
    · rw [State.past_note] at hdm ⊢
      rw [drainOf_of_drain? hb] at hdm
      exact (hover m hdm).imp_right Over.cons

/-- What a running transfer knows is steady. -/
theorem steady : Steady origin n (Running origin s₀ n d drain ds) where
  orderly h := h.orderly
  later h ho he hs := by
    refine ⟨h.toUnderway.onward ho he hs, ?_, ?_, ?_, h.unended, h.reach, fun hm => ?_⟩
    · rw [he.drainOf h.clock]; exact h.drainOf
    · exact ho.lawful.opened?_suffix he.suffix h.opened
    · rw [he.deeds h.clock]; exact h.deeds
    · obtain ⟨hdrain, hset, hover⟩ := h.own hm
      refine ⟨he.shut d hdrain, ?_, fun m hdm => ?_⟩
      · rw [he.settledTo h.orderly ho hdrain h.opened]; exact hset
      · rcases Nat.lt_or_ge m _ with hlt | hge
        · rw [he.drainOf hlt] at hdm
          exact (hover m hdm).imp_right he.over
        · exact absurd hdm (he.drainOf_ne h.orderly hdrain hge)
  line bytes h := by
    refine h.next rfl rfl trivial ?_ h.unended
    rw [State.past_note, deeds_line rfl]
    exact h.deeds
  same h hp hd hs hc := by
    refine ⟨h.toUnderway.same hp hd hs hc, ?_, ?_, ?_, h.unended, h.reach, ?_⟩
    · rw [hp]; exact h.drainOf
    · rw [hp]; exact h.opened
    · rw [hp]; exact h.deeds
    · rw [hp, hd]; exact h.own

/-- A deed that leaves the drains and the source alone. -/
theorem note (h : Running origin s₀ n d drain ds s) (hq : event.quiet = true) (hc : Course (event :: ds))
    (ht : Truthful d drain s.past ⟨n, event, s.drains, s.source⟩) :
    Running origin s₀ n d drain (event :: ds) (s.note n event) := by
  have hb : event.drain? = none := by
    cases hc with
    | began d' k =>
      have := h.course
      cases this
    | _ => rfl
  have hl : event.isLine = false := by cases hc <;> rfl
  refine h.next hq hb (allowed_of_course hb h.drainOf h.opened ?_ ht) ?_ ?_
  · rw [h.deeds]; exact hc
  · rw [State.past_note, deeds_self hl, h.deeds]
  · intro outcome ho
    rcases List.mem_cons.mp ho with rfl | ho
    · cases hq
    · exact h.unended outcome ho

/-- A claim. -/
theorem claimed (h : Running origin s₀ n d drain ds s) (hm : drain.mode = .concurrent) {start stop retries : Nat}
    (hp : t.past = ⟨n, .claimed start stop retries, t.drains, t.source⟩ :: s.past)
    (ht : t.drains = s.drains.modify d (Option.map fun drain => { drain with cursor := stop }))
    (hs : t.source = s.source) (hclock : t.clock = s.clock) (hc : Course (.claimed start stop retries :: ds))
    (htr : Truthful d drain s.past ⟨n, .claimed start stop retries, t.drains, t.source⟩) :
    Running origin s₀ n d drain (.claimed start stop retries :: ds) t := by
  have ha : Allowed s.past ⟨n, .claimed start stop retries, t.drains, t.source⟩ :=
    allowed_of_course rfl h.drainOf h.opened (by rw [h.deeds]; exact hc) htr
  have ho := h.orderly.claimed h.clock h.drainOf h.opened hm hp ht hs (Nat.le_of_eq hclock.symm) ha
  refine ⟨h.toUnderway.cons ho hp hclock ?_ (fun _ _ hd => by cases hd), ?_, ?_, ?_, ?_, h.reach,
    fun hm' => absurd hm hm'⟩
  · intro d' hd'
    have hne : ¬ d = d' := fun heq => h.reach d' hd' heq.symm
    rw [ht, Array.getElem?_modify, if_neg hne]
    exact h.since.shut d' hd'
  · rw [hp, drainOf_of_drain? rfl]; exact h.drainOf
  · rw [hp]; exact h.opened
  · rw [hp, deeds_self rfl, h.deeds]
  · intro outcome hmem
    rcases List.mem_cons.mp hmem with hmem | hmem
    · cases hmem
    · exact h.unended outcome hmem

end Running

end PagedRing.Session
