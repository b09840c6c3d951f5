import PagedRing.Proofs.Retained
import PagedRing.Proofs.Tended

/-!
# Drains piped into sinks

A drain is piped into a sink if its transfers, and no others, go to that sink. As the sink serves one transfer at a
time, so does the drain, also if it is shared. What holds while a transfer runs and what holds between two of them is
then carried along a history from one event to the next.

* `Piped`: a drain and the sink of all its transfers.
* `Stages.stage`: what holds while a transfer of a drain runs, and what holds while none does.
* `Lawful.not_beaten`: then no attempt to claim comes too late.
* `Piping`: a drain of the ring, opened at the write position and piped into a sink.
* `Piping.apart_taken`, `Piping.apart_stream`: what is none of the transfers' leaves alone what the sink has taken, and
  only writes add to the stream.
* `Conduit`: a session on a ring in which a drain is piped into a sink for lines of any length.
* `Conduit.standing`: the consumer was offered the lines of what the sink has taken.
-/

namespace PagedRing.Session

variable {ring : Ring} {drain : Drain} {n m d k : Nat} {e : Entry} {past before : List Entry} {event : Event}
  {drains : Array (Option Drain)} {source : Source}

/-- Whether the transfers of a drain go to a sink, and no others do. -/
def Piped (d k : Nat) (past : List Entry) : Prop :=
  ∀ e ∈ past, e.event.drain? = some d ↔ e.event.sink? = some k

theorem Piped.tail (h : Piped d k (e :: past)) : Piped d k past := fun e' he' => h e' (List.mem_cons_of_mem _ he')

theorem Piped.of_check (h : (past.all fun e => decide (e.event.drain? = some d ↔ e.event.sink? = some k)) = true) :
    Piped d k past := fun e he => of_decide_eq_true (List.all_eq_true.mp h e he)

/-- A step transfers from the drain exactly if it transfers to the sink. -/
theorem Piped.drainOf_iff (h : Piped d k past) : drainOf n past = some d ↔ sinkOf n past = some k := by
  induction past with
  | nil => exact iff_of_false nofun nofun
  | cons e past ih =>
    have hb := h e List.mem_cons_self
    obtain ⟨m, event, drains, source⟩ := e
    cases event with
    | began d' k' =>
      by_cases hn : m = n
      · subst hn
        rw [drainOf_began, sinkOf_began]
        exact hb
      · rw [drainOf_of_ne hn, sinkOf_of_ne hn]
        exact ih h.tail
    | _ =>
      rw [drainOf_of_drain? rfl, sinkOf_of_sink? rfl]
      exact ih h.tail

/-- A sink that serves one transfer at a time makes a drain that is piped into it do so. -/
theorem Piped.oneByOne (h : Piped d k past) (hf : Throughout (Framed k) past) : OneByOne d past := by
  induction hf with
  | nil => exact .nil
  | @cons e past hf hframed ih =>
    refine .cons (ih h.tail) fun hb m hd => ?_
    exact hframed.1 ((h e List.mem_cons_self).mp hb) m (h.tail.drainOf_iff.mp hd)

/-! ## Transfers one by one -/

/-- Something holds of what the running transfer of a drain has done, or something else holds while none runs. -/
structure Stage (d : Nat) (running : List Entry → List Event → Prop) (resting : List Entry → Prop)
    (past : List Entry) : Prop where
  running : ∀ n, drainOf n past = some d → ¬ Over n past → running past (deeds n past)
  resting : (∀ n, drainOf n past = some d → Over n past) → resting past

/-- Whether an event is none of the transfers' of a drain. -/
def Apart (d : Nat) (e : Entry) (past : List Entry) : Prop :=
  e.event.isLine = true ∨ drainOf e.step (e :: past) ≠ some d

/-- What each event does to what holds while a transfer runs, and to what holds while none does; `known` is known all
along. -/
structure Stages (origin : Source) (d : Nat) (known : List Entry → Prop) (running : List Entry → List Event → Prop)
    (resting : List Entry → Prop) : Prop where
  tail : ∀ {e past}, known (e :: past) → known past
  lawful : ∀ {past}, known past → Lawful origin past
  oneByOne : ∀ {past}, known past → OneByOne d past
  nil : resting []
  apart_running : ∀ {e past ds}, known (e :: past) → Apart d e past → (opened? d past).isSome → running past ds →
    running (e :: past) ds
  apart_resting : ∀ {e past}, known (e :: past) → Apart d e past → resting past → resting (e :: past)
  began : ∀ {n k drains source past}, known (⟨n, .began d k, drains, source⟩ :: past) → resting past →
    running (⟨n, .began d k, drains, source⟩ :: past) [.began d k]
  own : ∀ {e past}, known (e :: past) → drainOf e.step past = some d → e.event.isLine = false →
    e.event.ends = false → running past (deeds e.step past) → running (e :: past) (e.event :: deeds e.step past)
  ended : ∀ {n outcome drains source past}, known (⟨n, .ended outcome, drains, source⟩ :: past) →
    drainOf n past = some d → running past (deeds n past) → resting (⟨n, .ended outcome, drains, source⟩ :: past)

namespace Stages

variable {origin : Source} {known resting : List Entry → Prop} {running : List Entry → List Event → Prop}

/-- What is none of the transfers' changes nothing about them. -/
theorem stage_apart (h : Stages origin d known running resting) (hk : known (e :: past)) (ha : Apart d e past)
    (hs : Stage d running resting past) : Stage d running resting (e :: past) := by
  have hdeeds : ∀ m, drainOf m (e :: past) = some d → deeds m (e :: past) = deeds m past := by
    intro m hm
    rcases ha with hl | hd
    · exact deeds_line hl
    · exact deeds_of_ne fun heq => hd (heq ▸ hm)
  have hdrain : ∀ m, drainOf m (e :: past) = some d → drainOf m past = some d := fun m hm => by
    rw [← hm, drainOf, drainOf, hdeeds m hm]
  refine ⟨fun m hm hno => ?_, fun hover => h.apart_resting hk ha (hs.resting fun m hm => ?_)⟩
  · obtain ⟨drain, ho⟩ := (h.lawful (h.tail hk)).opened_of_drainOf (hdrain m hm)
    rw [hdeeds m hm]
    exact h.apart_running hk ha (by rw [ho]; rfl) (hs.running m (hdrain m hm) fun hov => hno hov.cons)
  · have hm' := (h.lawful hk).drainOf_mono (List.suffix_cons e past) hm
    have := hover m hm'
    rwa [Over, hdeeds m hm'] at this

/-- All others are over when a transfer goes on, so only that one runs until its end, and then none does. -/
theorem stage_own (h : Stages origin d known running resting) (hk : known (e :: past))
    (hd : drainOf e.step past = some d) (hl : e.event.isLine = false) (hs : Stage d running resting past)
    (hb : e.event.drain? = none) : Stage d running resting (e :: past) := by
  have hno := (h.lawful hk).not_over hl hd
  have hothers : ∀ m, drainOf m (e :: past) = some d → e.step ≠ m → Over m past := by
    intro m hm hne
    rw [drainOf_of_ne hne] at hm
    by_contra hmo
    exact hne ((h.oneByOne (h.tail hk)).unique hd hm hno hmo)
  have hrun := hs.running e.step hd hno
  obtain ⟨n, event, drains, source⟩ := e
  by_cases hends : event.ends = true
  · cases event with
    | ended outcome =>
      refine ⟨fun m hm hmo => absurd ?_ hmo, fun _ => h.ended hk hd hrun⟩
      by_cases hne : n = m
      · subst hne
        exact ⟨outcome, by rw [deeds_self rfl]; exact List.mem_cons_self⟩
      · exact (hothers m hm hne).cons
    | _ => cases hends
  · have hends' : event.ends = false := by simpa using hends
    refine ⟨fun m hm hmo => ?_, fun hover => ?_⟩
    · by_cases hne : n = m
      · subst hne
        rw [deeds_self hl]
        exact h.own hk hd hl hends' hrun
      · exact absurd (hothers m hm hne).cons hmo
    · exact absurd ((over_cons_iff hends').mp (hover n (by rw [drainOf_of_drain? hb]; exact hd))) hno

/-- All others are over when a transfer begins. -/
theorem stage_began (h : Stages origin d known running resting) {k : Nat}
    (hk : known (⟨n, .began d k, drains, source⟩ :: past)) (hs : Stage d running resting past) :
    Stage d running resting (⟨n, .began d k, drains, source⟩ :: past) := by
  have hover := (h.oneByOne hk).head rfl
  have hnone : deeds n past = [] := (h.lawful hk).1.1
  have hnew : ¬ Over n (⟨n, .began d k, drains, source⟩ :: past) := by
    rintro ⟨outcome, hmem⟩
    rw [deeds_self rfl, hnone] at hmem
    cases List.mem_singleton.mp hmem
  refine ⟨fun m hm hmo => ?_, fun hall => absurd (hall n (drainOf_began k)) hnew⟩
  by_cases hne : n = m
  · subst hne
    rw [deeds_self rfl, hnone]
    exact h.began hk (hs.resting hover)
  · rw [drainOf_of_ne hne] at hm
    exact absurd (hover m hm).cons hmo

/-- What holds of transfers one by one holds all along. -/
theorem stage (h : Stages origin d known running resting) (hk : known past) : Stage d running resting past := by
  induction past with
  | nil => exact ⟨nofun, fun _ => h.nil⟩
  | cons e past ih =>
    have hs := ih (h.tail hk)
    by_cases ha : Apart d e past
    · exact h.stage_apart hk ha hs
    · obtain ⟨hl, hd⟩ : e.event.isLine = false ∧ drainOf e.step (e :: past) = some d := by
        simpa only [Apart, not_or, Bool.not_eq_true, not_not] using ha
      by_cases hb : e.event.drain? = none
      · rw [drainOf_of_drain? hb] at hd
        exact h.stage_own hk hd hl hs hb
      · obtain ⟨n, event, drains, source⟩ := e
        cases event with
        | began d' k =>
          rw [drainOf_began] at hd
          cases hd
          exact h.stage_began hk hs
        | _ => exact absurd rfl hb

end Stages

/-- What is none of the transfers' of a drain leaves its cursor alone. -/
theorem Apart.cursor_eq {origin : Source} (ha : Apart d e past) (h : Lawful origin (e :: past))
    (ho : (opened? d past).isSome) :
    claimedTo d (e :: past) = claimedTo d past ∧ settledTo d (e :: past) = settledTo d past := by
  have hother : e.event.isLine = false → e.event.drain? = none → drainOf e.step past ≠ some d := by
    intro hl hb
    rw [← drainOf_of_drain? hb]
    exact ha.resolve_left (by simp [hl])
  obtain ⟨n, event, drains, source⟩ := e
  cases event with
  | opened d' cursor =>
    have hdd : d' ≠ d := by
      rintro rfl
      rw [show opened? d' past = none from h.1.2.1] at ho
      cases ho
    simp only [claimedTo, settledTo, hdd, ↓reduceIte, and_self]
  | claimed start stop retries =>
    have hd : drainOf n past ≠ some d := hother rfl rfl
    simp only [claimedTo, settledTo, hd, ↓reduceIte, and_self]
  | ended outcome =>
    have hd : drainOf n past ≠ some d := hother rfl rfl
    cases outcome with
    | ok report => simp only [claimedTo, settledTo, hd, ↓reduceIte, and_self]
    | error cause => exact ⟨rfl, rfl⟩
  | _ => exact ⟨rfl, rfl⟩

/-- Whether the cursor of a shared drain is still where a transfer has read it that looks for unread bytes. -/
def Unmoved (d : Nat) (past : List Entry) (ds : List Event) : Prop :=
  (∀ ev ∈ ds, ev.attempt = true) → ∀ cursor, loaded? ds = some cursor → claimedTo d past = cursor

theorem unmoved_stages {origin : Source} :
    Stages origin d (fun past => Lawful origin past ∧ OneByOne d past) (Unmoved d) fun _ => True where
  tail h := ⟨h.1.2.2, h.2.tail⟩
  lawful h := h.1
  oneByOne h := h.2
  nil := trivial
  apart_running {e past ds} h ha ho hs hall cursor hload := by
    rw [(ha.cursor_eq h.1 ho).1]
    exact hs hall cursor hload
  apart_resting _ _ _ := trivial
  began _ _ _ cursor hload := by cases hload
  own {e past} h hd hl _ hs hall cursor hload := by
    obtain ⟨drain, ho⟩ := h.1.2.2.opened_of_drainOf hd
    have htruth := (h.1.allowed hd ho hl).2
    obtain ⟨hattempt, hall⟩ := List.forall_mem_cons.mp hall
    obtain ⟨n, event, drains, source⟩ := e
    cases event with
    | loaded position =>
      obtain rfl : position = cursor := Option.some.inj hload
      exact htruth.2.symm
    | began | prompted | sampled | lost => exact hs hall cursor hload
    | _ => cases hattempt
  ended _ _ _ := trivial

/-- A drain that serves one transfer at a time is never too late, as nobody else moves its cursor. -/
theorem Lawful.not_beaten {origin : Source} {expected : Nat} (h : Lawful origin past) (hone : OneByOne d past)
    (hd : drainOf n past = some d) : ¬Beaten n d drain expected past := by
  intro hbeaten
  obtain ⟨position, hlatest, -⟩ := hbeaten.unread
  have hall := h.attempts_of_sampled hd hlatest
  have hover : ¬Over n past := by
    rintro ⟨outcome, hend⟩
    cases hall _ hend
  exact hbeaten.moved ((unmoved_stages.stage ⟨h, hone⟩).running n hd hover hall expected hbeaten.loaded)

/-! ## A drain and its sink -/

/-- A drain of the ring that was opened at the write position and is piped into a sink. -/
structure Piping (ring : Ring) (drain : Drain) (d k : Nat) (past : List Entry) : Prop where
  lawful : Lawful (.ring ring) past
  opened : ∀ first, opened? d past = some first → first = drain
  geometry : drain.geometry = ring.geometry
  abreast : Abreast d past
  piped : Piped d k past
  oneByOne : OneByOne d past

namespace Piping

theorem tail (h : Piping ring drain d k (e :: past)) : Piping ring drain d k past :=
  ⟨h.lawful.2.2, fun first ho => h.opened first (h.lawful.opened?_cons ho), h.geometry, h.abreast.tail, h.piped.tail,
    h.oneByOne.tail⟩

theorem opened_of_drainOf (h : Piping ring drain d k past) (hd : drainOf n past = some d) :
    opened? d past = some drain := by
  obtain ⟨first, ho⟩ := h.lawful.opened_of_drainOf hd
  rw [ho, h.opened first ho]

/-- What is none of the transfers' is a line, or it is none of the sink's. -/
theorem apart_cases (h : Piping ring drain d k (e :: past)) (ha : Apart d e past) :
    (∃ bytes, e.event = .line bytes) ∨ drainOf e.step past ≠ some d ∧ sinkOf e.step past ≠ some k := by
  rcases ha with hl | hd
  · obtain ⟨n, event, drains, source⟩ := e
    cases event with
    | line bytes => exact .inl ⟨bytes, rfl⟩
    | _ => cases hl
  · have hd' : drainOf e.step past ≠ some d := fun hd' => hd (h.lawful.drainOf_mono (List.suffix_cons e past) hd')
    exact .inr ⟨hd', fun hk => hd' (h.tail.piped.drainOf_iff.mpr hk)⟩

/-- What is none of the transfers' leaves alone what the sink has taken. -/
theorem apart_taken (h : Piping ring drain d k (e :: past)) (ha : Apart d e past) :
    taken k (e :: past) = taken k past := by
  obtain ⟨n, event, drains, source⟩ := e
  rcases h.apart_cases ha with ⟨bytes, rfl⟩ | ⟨-, hk⟩
  · by_cases hk : sinkOf n past = some k
    · exact (taken_line hk bytes drains source).1
    · exact (taken_of_other hk).1
  · exact (taken_of_other hk).1

/-- And so it does with the bytes of the stream, but for those that are written. -/
theorem apart_stream (h : Piping ring drain d k (e :: past)) (ho : (opened? d past).isSome) :
    ∃ bytes, stream d (e :: past) = stream d past ++ bytes ∧ (bytes = [] ∨ e.event = .wrote bytes) := by
  have hlaw := h.lawful
  obtain ⟨n, event, drains, source⟩ := e
  cases event with
  | wrote bytes => exact ⟨bytes, rfl, .inr rfl⟩
  | opened d' cursor =>
    have hdd : d' ≠ d := by
      rintro rfl
      rw [show opened? d' past = none from hlaw.1.2.1] at ho
      cases ho
    exact ⟨[], by simp only [stream, hdd, ↓reduceIte, List.append_nil], .inl rfl⟩
  | _ => exact ⟨[], (List.append_nil _).symm, .inl rfl⟩

end Piping

/-! ## Whole sessions -/

/-- A session on a ring in which a drain is piped into a sink for lines of any length. -/
structure Conduit (session : Session) (ring : Ring) (drain : Drain) (d k : Nat) (framer : LineFramer)
    (kept : Array Bytes) : Prop where
  source : session.source = .ring ring
  opened : opened? d session.past = some drain
  geometry : drain.geometry = ring.geometry
  /-- The drain was opened at the write position. -/
  abreast : Abreast d session.past
  piped : Piped d k session.past
  /-- The sink is left to transfers. -/
  spares : session.Spares k
  sink : ∃ script calls, session.run.2.sinks[k]? = some (some ⟨.lines framer, script, calls, kept⟩)
  unlimited : framer.limit = none

namespace Conduit

variable {session : Session} {framer : LineFramer} {kept : Array Bytes}

theorem lawful (h : Conduit session ring drain d k framer kept) : Lawful (.ring ring) session.past :=
  h.source ▸ session.lawful

theorem first_eq (h : Conduit session ring drain d k framer kept) {first : Drain}
    (ho : opened? d session.past = some first) : first = drain := Option.some.inj (ho.symm.trans h.opened)

/-- The consumer was offered the lines of what the sink has taken, and has accepted them after those that it had
accepted before. -/
theorem standing (h : Conduit session ring drain d k framer kept) :
    Throughout (Framed k) session.past ∧
      called k session.past = lines (taken k session.past) ∧
      framer.pending.toList = unfinished (taken k session.past) ∧
      kept.toList = earlier k session.past ++ called k session.past := by
  obtain ⟨script, calls, hsink⟩ := h.sink
  exact (tended h.spares).standing _ hsink framer rfl h.unlimited

theorem piping (h : Conduit session ring drain d k framer kept) : Piping ring drain d k session.past :=
  ⟨h.lawful, fun _ => h.first_eq, h.geometry, h.abreast, h.piped, h.piped.oneByOne h.standing.1⟩

end Conduit

end PagedRing.Session
