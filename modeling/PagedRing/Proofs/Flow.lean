import PagedRing.Proofs.Guards
import PagedRing.Proofs.Piping

/-!
# What flows through a drain into its sink

If a sink never refuses a chunk, the transfers of the drain that is piped into it hand it the stream from the first
byte on, whatever the sort of the drain. For this the writer has to spare the bytes that were not handed out yet.

* `handedLen`: the number of bytes that were handed to a sink.
* `Phase`: what holds while a transfer runs, from its first attempt to its last chunk.
* `Served`: what a transfer that succeeds leaves, and `Rest`: what holds between two.
* `Flowing.stages`: what each event of a transfer does to its phase.
* `Flowing.taken_eq`: the sink has taken the whole stream if nothing was written since the write position was read.
-/

namespace PagedRing.Session

variable {ring : Ring} {drain : Drain} {n d k : Nat} {e : Entry} {past before : List Entry} {ds : List Event}
  {event : Event} {drains : Array (Option Drain)} {source : Source}

/-! ## Numbers of the stream -/

/-- The number of bytes that transfers have handed to a sink. -/
def handedLen (k : Nat) : List Entry → Nat
  | [] => 0
  | e :: past =>
    match e.event with
    | .offered _ bytes => if sinkOf e.step past = some k then handedLen k past + bytes.length else handedLen k past
    | _ => handedLen k past

/-- Whether nothing was written since a transfer of a drain last read the write position. -/
def caughtUp (d : Nat) : List Entry → Bool
  | [] => false
  | e :: past =>
    match e.event with
    | .wrote _ => false
    | .sampled _ => decide (drainOf e.step past = some d) || caughtUp d past
    | _ => caughtUp d past

/-- Whether a sink never refuses a chunk. -/
def Willing (k : Nat) : List Entry → Prop :=
  Throughout fun e past => e.event.refuses = true → sinkOf e.step past ≠ some k

/-- The position of a byte of the stream of a drain, from its number. -/
def Drain.positionOf (drain : Drain) (number : Nat) : Nat := (drain.cursor + number) % drain.geometry.capacity

/-- The number of bytes from one position to another, if less than a turn lies between them. -/
theorem Drain.len_of_unreadLen {a b start stop len : Nat} (hstart : start = drain.positionOf a)
    (hstop : stop = drain.positionOf b) (hlen : drain.geometry.unreadLen start stop = .ok len) (hab : a ≤ b)
    (hba : b < a + drain.geometry.capacity) : a + len = b := by
  have hlt : start < drain.geometry.capacity := hstart ▸ Nat.mod_lt _ drain.geometry.capacity_pos
  have heq := Share.len_eq drain.geometry (c := ⟨0, start, stop, 0⟩) hstart hstop hab hba
  rw [Share.len_of_unreadLen (c := ⟨0, start, stop, 0⟩) hlt hlen] at heq
  omega

/-- Whether a number of the stream lies in it, and at its end if nothing was written since the write position was
read. -/
structure Sight (d : Nat) (past : List Entry) (target : Nat) : Prop where
  le : target ≤ (stream d past).length
  all : caughtUp d past = true → target = (stream d past).length

/-- Whether a range leads from where all bytes before were handed out to a number of the stream, and whether the cursor
of a shared drain stands there. -/
structure Aim (drain : Drain) (d k : Nat) (past : List Entry) (start stop target : Nat) : Prop where
  taken : taken k past = (stream d past).take (handedLen k past)
  start : start = drain.positionOf (handedLen k past)
  stop : stop = drain.positionOf target
  cursor : drain.mode = .concurrent → cursorAt d drain past = drain.positionOf target
  le : handedLen k past ≤ target
  lt : target < handedLen k past + drain.geometry.capacity
  sight : Sight d past target

/-- What a running transfer means for its drain and its sink, given what the transfer has done. -/
inductive Phase (drain : Drain) (d k : Nat) (past : List Entry) : List Event → Prop
  /-- It looks for bytes from where all bytes before were handed out. -/
  | trying {ds : List Event} (attempts : ∀ x ∈ ds, x.attempt = true)
      (taken : taken k past = (stream d past).take (handedLen k past))
      (cursor : cursorAt d drain past = drain.positionOf (handedLen k past))
      (loaded : ∀ c, loaded? ds = some c → c = drain.positionOf (handedLen k past)) : Phase drain d k past ds
  /-- It has claimed the bytes from there up to another one. -/
  | won {start stop retries : Nat} {ds : List Event} (target : Nat) (aim : Aim drain d k past start stop target) :
      Phase drain d k past (.claimed start stop retries :: ds)
  /-- It hands out a range, chunk by chunk. -/
  | handing {ds : List Event} {plan : Plan} (first : Nat) (planned : planned? ds = some plan)
      (start : plan.start = drain.positionOf first) (handed : handedLen k past = first + size (chunksOffered ds))
      (bytes : content (chunksOffered ds) = ((stream d past).drop first).take (size (chunksOffered ds)))
      (taken : taken k past = (stream d past).take first ++ content (chunksAccepted ds))
      (cursor : drain.mode = .concurrent → cursorAt d drain past = drain.positionOf (first + plan.len))
      (sight : Sight d past (first + plan.len)) : Phase drain d k past ds

/-- Whether what was handed out is less than a turn behind the end of the stream. -/
structure Room (drain : Drain) (d k : Nat) (past : List Entry) : Prop where
  le : handedLen k past ≤ (stream d past).length
  lt : (stream d past).length < handedLen k past + drain.geometry.capacity

/-- What a running transfer means while there is room. -/
def Flows (drain : Drain) (d k : Nat) (past : List Entry) (ds : List Event) : Prop :=
  Room drain d k past ∧ Phase drain d k past ds

/-- Whether a sink has taken all that was handed out, with the cursor behind it, and whether that is all there is if
nothing was written since the write position was read. -/
structure Served (drain : Drain) (d k : Nat) (past : List Entry) (cursor : Nat) : Prop where
  taken : taken k past = (stream d past).take (handedLen k past)
  cursor : cursor = drain.positionOf (handedLen k past)
  all : caughtUp d past = true → handedLen k past = (stream d past).length

/-- What holds between two transfers, and before the drain was opened. -/
def Rest (drain : Drain) (d k : Nat) (past : List Entry) : Prop :=
  match opened? d past with
  | none => taken k past = [] ∧ handedLen k past = 0 ∧ caughtUp d past = false
  | some _ => Room drain d k past ∧ Served drain d k past (cursorAt d drain past)

namespace Phase

/-- A transfer that still looks for bytes has not found any. -/
theorem of_attempts (h : Phase drain d k past ds) (hall : ∀ x ∈ ds, x.attempt = true) :
    taken k past = (stream d past).take (handedLen k past) ∧
      cursorAt d drain past = drain.positionOf (handedLen k past) ∧
      ∀ c, loaded? ds = some c → c = drain.positionOf (handedLen k past) := by
  cases h with
  | trying _ taken cursor loaded => exact ⟨taken, cursor, loaded⟩
  | won => cases hall _ List.mem_cons_self
  | handing _ planned =>
    rw [(Course.of_trying hall).1] at planned
    cases planned

/-- A transfer that hands chunks out has a range. -/
theorem of_planned {plan : Plan} (h : Phase drain d k past ds) (hc : Course ds) (hp : planned? ds = some plan) :
    ∃ first, plan.start = drain.positionOf first ∧ handedLen k past = first + size (chunksOffered ds) ∧
      content (chunksOffered ds) = ((stream d past).drop first).take (size (chunksOffered ds)) ∧
      taken k past = (stream d past).take first ++ content (chunksAccepted ds) ∧
      (drain.mode = .concurrent → cursorAt d drain past = drain.positionOf (first + plan.len)) ∧
      Sight d past (first + plan.len) := by
  cases h with
  | trying attempts =>
    rw [(Course.of_trying attempts).1] at hp
    cases hp
  | @won start stop retries ds =>
    have hnone : planned? ds = some plan := hp
    rw [(hc.of_finds rfl).1] at hnone
    cases hnone
  | handing first planned start handed bytes taken cursor sight =>
    cases planned.symm.trans hp
    exact ⟨first, start, handed, bytes, taken, cursor, sight⟩

/-- What leaves the drain, the sink and what was handed out alone does not change the phase, also if bytes are
written. -/
theorem grow (h : Phase drain d k past ds) (hr : Room drain d k past) (hh : handedLen k (e :: past) = handedLen k past)
    (ht : taken k (e :: past) = taken k past) (hc : cursorAt d drain (e :: past) = cursorAt d drain past)
    {bytes : Bytes} (hs : stream d (e :: past) = stream d past ++ bytes)
    (hu : caughtUp d (e :: past) = true → caughtUp d past = true ∧ bytes = []) : Phase drain d k (e :: past) ds := by
  have hle := hr.le
  have htake : ∀ m ≤ (stream d past).length, (stream d (e :: past)).take m = (stream d past).take m := fun m hm => by
    rw [hs, List.take_append_of_le_length hm]
  have hsight : ∀ target, Sight d past target → Sight d (e :: past) target := fun target hsight => by
    refine ⟨by rw [hs, List.length_append]; have := hsight.le; omega, fun hcaught => ?_⟩
    obtain ⟨hcaught, rfl⟩ := hu hcaught
    rw [hs, List.append_nil]
    exact hsight.all hcaught
  cases h with
  | trying attempts taken cursor loaded =>
    refine .trying attempts ?_ (by rw [hc, hh]; exact cursor) (by rw [hh]; exact loaded)
    rw [ht, hh, htake _ hle]
    exact taken
  | won target aim =>
    refine .won target ⟨?_, by rw [hh]; exact aim.start, aim.stop, by rw [hc]; exact aim.cursor,
      by rw [hh]; exact aim.le, by rw [hh]; exact aim.lt, hsight _ aim.sight⟩
    rw [ht, hh, htake _ hle]
    exact aim.taken
  | handing first planned start handed content taken cursor sight =>
    refine .handing first planned start (by rw [hh]; exact handed) ?_ ?_ (by rw [hc]; exact cursor) (hsight _ sight)
    · rw [hs, List.drop_append_of_le_length (by omega),
        List.take_append_of_le_length (by rw [List.length_drop]; omega)]
      exact content
    · rw [ht, htake _ (by omega)]
      exact taken

end Phase

/-- A drain that is piped into a sink that never refuses a chunk, and a writer that spares what was not handed out. -/
structure Flowing (ring : Ring) (drain : Drain) (d k : Nat) (past : List Entry) : Prop
    extends Piping ring drain d k past where
  keptUp : KeptUp drain.geometry d (handedLen k) past
  willing : Willing k past
  succeeds : Throughout (fun e past => drainOf e.step past = some d → ∀ cause, e.event ≠ .ended (.error cause)) past

namespace Flowing

theorem tail (h : Flowing ring drain d k (e :: past)) : Flowing ring drain d k past :=
  ⟨h.toPiping.tail, h.keptUp.tail, h.willing.tail, h.succeeds.tail⟩

theorem backlog_eq (h : Flowing ring drain d k past) (ho : opened? d past = some drain) :
    backlog drain.geometry d past = 0 :=
  h.lawful.backlog_of_abreast ho h.abreast

/-- A write position that was read last stands where the stream ends. -/
theorem sampled_eq (h : Flowing ring drain d k past) (hd : drainOf n past = some d) {position : Nat}
    (hlatest : Latest n (.sampled position) past) : position = drain.positionOf (stream d past).length := by
  have ho := h.opened_of_drainOf hd
  have hposition := h.lawful.sampled_eq ho h.geometry hd hlatest
  rwa [h.backlog_eq ho, Nat.zero_add] at hposition

/-! ## What is none of the transfers' -/

theorem apart_handedLen (h : Flowing ring drain d k (e :: past)) (ha : Apart d e past) :
    handedLen k (e :: past) = handedLen k past := by
  obtain ⟨n, event, drains, source⟩ := e
  rcases h.apart_cases ha with ⟨bytes, rfl⟩ | ⟨-, hk⟩
  · rfl
  · cases event <;> first | rfl | simp only [handedLen, hk, ↓reduceIte]

theorem apart_caughtUp (h : Flowing ring drain d k (e :: past)) (ha : Apart d e past)
    (hu : caughtUp d (e :: past) = true) : caughtUp d past = true ∧ e.event.writes = false := by
  obtain ⟨n, event, drains, source⟩ := e
  rcases h.apart_cases ha with ⟨bytes, rfl⟩ | ⟨hd, -⟩
  · exact ⟨hu, rfl⟩
  · cases event with
    | wrote => cases hu
    | sampled position =>
      rw [caughtUp, Bool.or_eq_true, decide_eq_true_iff] at hu
      exact ⟨hu.resolve_left hd, rfl⟩
    | _ => exact ⟨hu, rfl⟩

theorem apart_cursorAt (h : Flowing ring drain d k (e :: past)) (ha : Apart d e past) (ho : (opened? d past).isSome) :
    cursorAt d drain (e :: past) = cursorAt d drain past := by
  obtain ⟨hclaimed, hsettled⟩ := ha.cursor_eq h.lawful ho
  unfold cursorAt
  rw [hclaimed, hsettled]

/-- Writes leave room. -/
theorem apart_room (h : Flowing ring drain d k (e :: past)) (ha : Apart d e past) (ho : (opened? d past).isSome)
    (hr : Room drain d k past) : Room drain d k (e :: past) := by
  have hh := h.apart_handedLen ha
  obtain ⟨bytes, hs, hbytes⟩ := h.apart_stream ho
  refine ⟨by rw [hh, hs, List.length_append]; have := hr.le; omega, ?_⟩
  rw [hh]
  rcases hbytes with rfl | hwrote
  · rw [hs, List.append_nil]
    exact hr.lt
  · have := h.keptUp.head (by rw [hwrote]; rfl) ho
    omega

theorem apart_flows (h : Flowing ring drain d k (e :: past)) (ha : Apart d e past) (ho : (opened? d past).isSome)
    (hf : Flows drain d k past ds) : Flows drain d k (e :: past) ds := by
  obtain ⟨bytes, hs, hbytes⟩ := h.apart_stream ho
  refine ⟨h.apart_room ha ho hf.1, hf.2.grow hf.1 (h.apart_handedLen ha) (h.apart_taken ha) (h.apart_cursorAt ha ho) hs
    fun hu => ?_⟩
  obtain ⟨hcaught, hwrites⟩ := h.apart_caughtUp ha hu
  refine ⟨hcaught, hbytes.resolve_right fun hwrote => ?_⟩
  rw [hwrote] at hwrites
  cases hwrites

/-- A drain is opened before anything is handed out, at the first byte of its stream. -/
theorem rest_of_opened {cursor : Nat} (h : Flowing ring drain d k (⟨n, .opened d cursor, drains, source⟩ :: past))
    (hr : Rest drain d k past) : Rest drain d k (⟨n, .opened d cursor, drains, source⟩ :: past) := by
  have hlaw := h.lawful
  obtain ⟨-, hnone, first, hplace, hcursor, hlt⟩ := hlaw.1
  have ho : opened? d (⟨n, .opened d cursor, drains, source⟩ :: past) = some first := by
    simp only [opened?, ↓reduceIte, hplace, Option.join_some]
  obtain rfl := h.opened first ho
  simp only [Rest, hnone] at hr
  obtain ⟨htaken, hhanded, hcaught⟩ := hr
  have hstream : stream d (⟨n, .opened d cursor, drains, source⟩ :: past) = [] := by simp only [stream, ↓reduceIte]
  have hhanded' : handedLen k (⟨n, .opened d cursor, drains, source⟩ :: past) = 0 := hhanded
  simp only [Rest, ho]
  refine ⟨⟨by rw [hhanded']; exact Nat.zero_le _, ?_⟩, ?_, ?_, fun hu => ?_⟩
  · rw [hstream, List.length_nil]
    exact Nat.add_pos_right _ first.geometry.capacity_pos
  · rw [(taken_of_untold k past rfl).1, htaken, hstream, List.take_nil]
  · rw [hhanded', Drain.positionOf, Nat.add_zero, hcursor, Nat.mod_eq_of_lt hlt]
    unfold cursorAt
    simp only [claimedTo, settledTo, ↓reduceIte]
    split <;> rfl
  · cases hcaught.symm.trans hu

theorem apart_rest (h : Flowing ring drain d k (e :: past)) (ha : Apart d e past) (hr : Rest drain d k past) :
    Rest drain d k (e :: past) := by
  have hh := h.apart_handedLen ha
  have ht := h.apart_taken ha
  cases ho : opened? d past with
  | none =>
    cases ho' : opened? d (e :: past) with
    | none =>
      simp only [Rest, ho] at hr
      simp only [Rest, ho']
      refine ⟨ht.trans hr.1, hh.trans hr.2.1, Bool.eq_false_iff.mpr fun hu => ?_⟩
      cases (h.apart_caughtUp ha hu).1.symm.trans hr.2.2
    | some first =>
      obtain ⟨n, event, drains, source⟩ := e
      cases event with
      | opened d' cursor =>
        by_cases hdd : d' = d
        · subst hdd
          exact h.rest_of_opened hr
        · simp only [opened?, hdd, ↓reduceIte, ho] at ho'
          cases ho'
      | _ => cases ho.symm.trans ho'
  | some first =>
    have ho' := h.lawful.opened?_cons ho
    have hsome : (opened? d past).isSome := by rw [ho]; rfl
    simp only [Rest, ho] at hr
    obtain ⟨hroom, hserved⟩ := hr
    obtain ⟨bytes, hs, hbytes⟩ := h.apart_stream hsome
    simp only [Rest, ho']
    refine ⟨h.apart_room ha hsome hroom, ?_, ?_, fun hu => ?_⟩
    · rw [ht, hh, hs, List.take_append_of_le_length hroom.le]
      exact hserved.taken
    · rw [h.apart_cursorAt ha hsome, hh]
      exact hserved.cursor
    · obtain ⟨hcaught, hwrites⟩ := h.apart_caughtUp ha hu
      have hnone : bytes = [] := hbytes.resolve_right fun hwrote => by rw [hwrote] at hwrites; cases hwrites
      rw [hh, hs, hnone, List.append_nil]
      exact hserved.all hcaught

/-! ## What a transfer does itself -/

/-- A transfer begins where all bytes before were handed out. -/
theorem began {k' : Nat} (h : Flowing ring drain d k (⟨n, .began d k', drains, source⟩ :: past))
    (hr : Rest drain d k past) : Flows drain d k (⟨n, .began d k', drains, source⟩ :: past) [.began d k'] := by
  have ho : opened? d past = some drain := h.opened_of_drainOf (drainOf_began k')
  simp only [Rest, ho] at hr
  obtain ⟨hroom, htaken, hcursor, -⟩ := hr
  refine ⟨⟨hroom.le, hroom.lt⟩, .trying (by simp [Event.attempt]) ?_ hcursor nofun⟩
  rw [(taken_of_untold k past rfl).1]
  exact htaken

/-- An attempt to find unread bytes. -/
theorem attempted
    (hc : Course (event :: deeds n past)) (hattempt : event.attempt = true)
    (hu : event.tells = false) (hf : Flows drain d k past (deeds n past))
    (hh : handedLen k (⟨n, event, drains, source⟩ :: past) = handedLen k past)
    (hcursor : cursorAt d drain (⟨n, event, drains, source⟩ :: past) = cursorAt d drain past)
    (hs : stream d (⟨n, event, drains, source⟩ :: past) = stream d past)
    (hloaded : loaded? (event :: deeds n past) = loaded? (deeds n past) ∨
      loaded? (event :: deeds n past) = some (cursorAt d drain past)) :
    Flows drain d k (⟨n, event, drains, source⟩ :: past) (event :: deeds n past) := by
  have hall := hc.trying rfl hattempt
  obtain ⟨htaken, hat, hload⟩ := hf.2.of_attempts (List.forall_mem_cons.mp hall).2
  refine ⟨⟨by rw [hh, hs]; exact hf.1.le, by rw [hh, hs]; exact hf.1.lt⟩, .trying hall ?_ ?_ fun c hc => ?_⟩
  · rw [(taken_of_untold k past hu).1, hh, hs]
    exact htaken
  · rw [hcursor, hh]
    exact hat
  · rw [hh]
    rcases hloaded with heq | heq
    · exact hload c (heq ▸ hc)
    · rw [heq] at hc
      exact (Option.some.inj hc).symm.trans hat

/-- A claim takes all that is unread. -/
theorem claimed {start stop retries : Nat}
    (h : Flowing ring drain d k (⟨n, .claimed start stop retries, drains, source⟩ :: past))
    (hd : drainOf n past = some d) (hf : Flows drain d k past (deeds n past)) :
    Flows drain d k (⟨n, .claimed start stop retries, drains, source⟩ :: past)
      (.claimed start stop retries :: deeds n past) := by
  obtain ⟨hroom, hphase⟩ := hf
  have ho := h.tail.opened_of_drainOf hd
  obtain ⟨hcourse, hmode, hstart, hlatest, -⟩ := h.lawful.allowed hd ho rfl
  have hattempts : ∀ x ∈ deeds n past, x.attempt = true := by
    generalize deeds n past = ds at hcourse
    cases hcourse with
    | claimed hcourse => exact hcourse.trying rfl rfl
  obtain ⟨htaken, hcursor, -⟩ := hphase.of_attempts hattempts
  have hstop := h.tail.sampled_eq hd hlatest
  refine ⟨⟨hroom.le, hroom.lt⟩, .won (stream d past).length ⟨?_, ?_, hstop, fun _ => ?_, hroom.le, hroom.lt,
    ⟨Nat.le_refl _, fun _ => rfl⟩⟩⟩
  · rw [(taken_of_untold k past rfl).1]
    exact htaken
  · rw [hstart]
    show claimedTo d past = drain.positionOf (handedLen k past)
    simpa only [cursorAt, hmode] using hcursor
  · simp only [cursorAt, hmode, claimedTo, hd, ↓reduceIte]
    exact hstop

/-- A range leads to where the write position was read. -/
theorem aim_of_planned {plan : Plan} (h : Flowing ring drain d k (⟨n, .planned plan, drains, source⟩ :: past))
    (hd : drainOf n past = some d) (hf : Flows drain d k past (deeds n past)) :
    ∃ stop target, drain.geometry.unreadLen plan.start stop = .ok plan.len ∧
      Aim drain d k past plan.start stop target := by
  obtain ⟨hroom, hphase⟩ := hf
  have ho := h.tail.opened_of_drainOf hd
  obtain ⟨hcourse, -, stop, hlen, hmode⟩ := h.lawful.allowed hd ho rfl
  cases hm : drain.mode with
  | concurrent =>
    rw [hm] at hmode
    obtain ⟨retries, _, _, before, rfl⟩ := hmode
    rw [deeds_self rfl] at hphase
    cases hphase with
    | trying attempts => cases attempts _ List.mem_cons_self
    | won target aim => exact ⟨stop, target, hlen, aim⟩
    | handing _ planned =>
      rw [deeds_self rfl] at hcourse
      cases hcourse with
      | planned hcourse =>
        rw [show planned? (_ :: deeds n before) = planned? (deeds n before) from rfl, (hcourse.of_finds rfl).1]
          at planned
        cases planned
  | sequential own =>
    rw [hm] at hmode
    obtain ⟨hstart, hlatest, -, -⟩ := hmode
    obtain ⟨htaken, hcursor, -⟩ := hphase.of_attempts (h.tail.lawful.attempts_of_sampled hd hlatest)
    simp only [cursorAt, hm] at hcursor
    refine ⟨stop, (stream d past).length, hlen, htaken, hstart.trans hcursor, h.tail.sampled_eq hd hlatest, ?_,
      hroom.le, hroom.lt, ⟨Nat.le_refl _, fun _ => rfl⟩⟩
    rw [hm]
    nofun

/-- No chunk was offered before the range was found. -/
theorem planned {plan : Plan} (h : Flowing ring drain d k (⟨n, .planned plan, drains, source⟩ :: past))
    (hd : drainOf n past = some d) (hf : Flows drain d k past (deeds n past)) :
    Flows drain d k (⟨n, .planned plan, drains, source⟩ :: past) (.planned plan :: deeds n past) := by
  have hcourse := (h.lawful.allowed hd (h.tail.opened_of_drainOf hd) rfl).1
  obtain ⟨stop, target, hlen, haim⟩ := h.aim_of_planned hd hf
  have htarget : handedLen k past + plan.len = target :=
    drain.len_of_unreadLen haim.start haim.stop hlen haim.le haim.lt
  have hnone : chunksOffered (.planned plan :: deeds n past) = [] ∧
      chunksAccepted (.planned plan :: deeds n past) = [] := by
    generalize deeds n past = ds at hcourse
    cases hcourse with
    | @planned ev ds plan hcourse hfinds =>
      obtain ⟨-, -, hoffered, haccepted⟩ := hcourse.of_finds hfinds
      cases ev <;> first | exact ⟨hoffered, haccepted⟩ | cases hfinds
  refine ⟨⟨hf.1.le, hf.1.lt⟩, .handing (handedLen k past) rfl haim.start ?_ ?_ ?_ ?_ ?_⟩
  · rw [hnone.1]
    rfl
  · rw [hnone.1]
    rfl
  · rw [(taken_of_untold k past rfl).1, hnone.2]
    exact haim.taken.trans (List.append_nil _).symm
  · rw [htarget]
    exact haim.cursor
  · rw [htarget]
    exact ⟨haim.sight.le, haim.sight.all⟩

/-- A chunk goes on in the stream where the chunks before it ended. -/
theorem offered {span : Span} {bytes : Bytes}
    (h : Flowing ring drain d k (⟨n, .offered span bytes, drains, source⟩ :: past)) (hd : drainOf n past = some d)
    (hf : Flows drain d k past (deeds n past)) :
    Flows drain d k (⟨n, .offered span bytes, drains, source⟩ :: past) (.offered span bytes :: deeds n past) := by
  obtain ⟨hroom, hphase⟩ := hf
  have ho := h.tail.opened_of_drainOf hd
  have hsink := h.tail.piped.drainOf_iff.mp hd
  have hcourse := (h.lawful.allowed hd ho rfl).1
  obtain ⟨plan, hplan⟩ := hcourse.planned_of_offered (by simp [chunksOffered])
  obtain ⟨first, hstart, hhanded, hbytes, htaken, hcursor, hsight⟩ :=
    hphase.of_planned (h.tail.lawful.course hd) hplan
  have hlt := hroom.lt
  have hle := hsight.le
  obtain ⟨hmore, hchunk⟩ := h.lawful.offered_eq hd ho h.geometry (h.tail.backlog_eq ho) hplan hstart hle
    fun _ => by omega
  have hlen : bytes.length = span.len := by
    rw [hchunk, List.length_take, List.length_drop]
    omega
  have hsize : size (chunksOffered (.offered span bytes :: deeds n past)) =
      size (chunksOffered (deeds n past)) + span.len := by
    rw [chunksOffered, size_append]
    simp [size]
  have hhanded' : handedLen k (⟨n, .offered span bytes, drains, source⟩ :: past) = handedLen k past + span.len := by
    simp only [handedLen, hsink, ↓reduceIte, hlen]
  refine ⟨⟨?_, ?_⟩, .handing first hplan hstart ?_ ?_ ?_ hcursor ⟨hle, hsight.all⟩⟩
  · show _ ≤ (stream d past).length
    omega
  · show (stream d past).length < _
    omega
  · omega
  · rw [hsize, List.take_add, List.drop_drop, chunksOffered, content_append, content_singleton]
    exact congrArg₂ (· ++ ·) hbytes hchunk
  · rw [(taken_of_untold k past rfl).1]
    exact htaken

/-- A chunk that is accepted joins the bytes that the sink has taken. -/
theorem accepted {span : Span} {bytes : Bytes}
    (h : Flowing ring drain d k (⟨n, .accepted span bytes, drains, source⟩ :: past)) (hd : drainOf n past = some d)
    (hf : Flows drain d k past (deeds n past)) :
    Flows drain d k (⟨n, .accepted span bytes, drains, source⟩ :: past) (.accepted span bytes :: deeds n past) := by
  obtain ⟨hroom, hphase⟩ := hf
  have ho := h.tail.opened_of_drainOf hd
  have hsink := h.tail.piped.drainOf_iff.mp hd
  have hcourse := (h.lawful.allowed hd ho rfl).1
  obtain ⟨plan, hplan⟩ : ∃ plan, planned? (deeds n past) = some plan := by
    generalize deeds n past = ds at hcourse
    cases hcourse with
    | accepted hcourse => exact hcourse.planned_of_offered (by simp [chunksOffered])
  obtain ⟨first, hstart, hhanded, hbytes, htaken, hcursor, hsight⟩ :=
    hphase.of_planned (h.tail.lawful.course hd) hplan
  refine ⟨⟨hroom.le, hroom.lt⟩, .handing first hplan hstart hhanded hbytes ?_ hcursor ⟨hsight.le, hsight.all⟩⟩
  rw [(taken_accepted hsink span bytes drains source).1, htaken, chunksAccepted, content_append, content_singleton,
    List.append_assoc]
  rfl

/-- A report changes nothing. -/
theorem delivered {report : Transfer}
    (h : Flowing ring drain d k (⟨n, .delivered report, drains, source⟩ :: past)) (hd : drainOf n past = some d)
    (hf : Flows drain d k past (deeds n past)) :
    Flows drain d k (⟨n, .delivered report, drains, source⟩ :: past) (.delivered report :: deeds n past) := by
  obtain ⟨hroom, hphase⟩ := hf
  have ho := h.tail.opened_of_drainOf hd
  obtain ⟨plan, hplan, -⟩ := h.lawful.whole_of_delivered (by rw [drainOf_of_drain? rfl]; exact hd) .cons
  rw [deeds_self rfl] at hplan
  obtain ⟨first, hstart, hhanded, hbytes, htaken, hcursor, hsight⟩ :=
    hphase.of_planned (h.tail.lawful.course hd) hplan
  refine ⟨⟨hroom.le, hroom.lt⟩, .handing first hplan hstart hhanded hbytes ?_ hcursor ⟨hsight.le, hsight.all⟩⟩
  rw [(taken_of_untold k past rfl).1]
  exact htaken

/-- What an event of a running transfer does to its phase. -/
theorem own (h : Flowing ring drain d k (e :: past)) (hd : drainOf e.step past = some d) (hl : e.event.isLine = false)
    (hends : e.event.ends = false) (hf : Flows drain d k past (deeds e.step past)) :
    Flows drain d k (e :: past) (e.event :: deeds e.step past) := by
  have ho := h.tail.opened_of_drainOf hd
  obtain ⟨hcourse, hmeans⟩ := h.lawful.allowed hd ho hl
  obtain ⟨n, event, drains, source⟩ := e
  cases event with
  | line bytes => cases hl
  | ended outcome => cases hends
  | opened | wrote => cases hcourse
  | began d' k' =>
    have hnone : deeds n past = [] := h.lawful.1.1
    rw [drainOf, hnone] at hd
    cases hd
  | loaded cursor =>
    obtain ⟨hmode, rfl⟩ := hmeans
    exact attempted hcourse rfl rfl hf rfl rfl rfl (.inr (by simp only [loaded?, cursorAt, hmode]))
  | prompted | sampled | lost => exact attempted hcourse rfl rfl hf rfl rfl rfl (.inl rfl)
  | claimed start stop retries => exact claimed h hd hf
  | planned plan => exact planned h hd hf
  | offered span bytes => exact offered h hd hf
  | accepted span bytes => exact accepted h hd hf
  | refused => exact absurd (h.tail.piped.drainOf_iff.mp hd) (h.willing.head rfl)
  | delivered report => exact delivered h hd hf

/-- A transfer that found nothing unread leaves the cursor where the stream ends. -/
theorem served_of_empty {position : Nat} (h : Flowing ring drain d k past) (hd : drainOf n past = some d)
    (hf : Flows drain d k past (deeds n past)) (hlatest : Latest n (.sampled position) past)
    (hbase : base? n d drain past = some position) :
    Served drain d k past (cursorAt d drain (⟨n, .ended (.ok (.emptyAt position)), drains, source⟩ :: past)) := by
  obtain ⟨hroom, hphase⟩ := hf
  obtain ⟨htaken, hcursor, hloaded⟩ := hphase.of_attempts (h.lawful.attempts_of_sampled hd hlatest)
  obtain ⟨hposition, hcursor'⟩ : position = drain.positionOf (handedLen k past) ∧
      cursorAt d drain (⟨n, .ended (.ok (.emptyAt position)), drains, source⟩ :: past) =
        drain.positionOf (handedLen k past) := by
    unfold base? at hbase
    unfold cursorAt at hcursor ⊢
    cases hm : drain.mode with
    | concurrent =>
      simp only [hm] at hbase hcursor ⊢
      exact ⟨hloaded _ hbase, hcursor⟩
    | sequential own =>
      simp only [hm, Option.some.injEq] at hbase hcursor
      simp only [settledTo, hd, ↓reduceIte]
      exact ⟨hbase ▸ hcursor, hbase ▸ hcursor⟩
  have hend := drain.geometry.eq_of_same_position ((h.sampled_eq hd hlatest).symm.trans hposition) hroom.le hroom.lt
  exact ⟨htaken, hcursor', fun _ => hend⟩

/-- A transfer that has delivered its range leaves the cursor behind it. -/
theorem served_of_delivered {report : Transfer} (h : Flowing ring drain d k past) (hd : drainOf n past = some d)
    (hf : Flows drain d k past (deeds n past)) (hlatest : Latest n (.delivered report) past) :
    Served drain d k past (cursorAt d drain (⟨n, .ended (.ok report), drains, source⟩ :: past)) := by
  have ho := h.opened_of_drainOf hd
  obtain ⟨plan, hplan, -, hadvance, hwhole, haccepted⟩ := h.lawful.whole_of_delivered hd hlatest
  obtain ⟨first, hstart, hhanded, hbytes, htaken, hcursor, hsight⟩ := hf.2.of_planned (h.lawful.course hd) hplan
  rw [hwhole] at hhanded hbytes
  refine ⟨?_, ?_, fun hcaught => hhanded.trans (hsight.all hcaught)⟩
  · rw [htaken, haccepted, hbytes, hhanded, List.take_add]
  · rw [hhanded]
    unfold cursorAt at hcursor ⊢
    cases hm : drain.mode with
    | concurrent =>
      simp only [hm] at hcursor ⊢
      exact hcursor trivial
    | sequential own =>
      have hfits := ((h.lawful.course hd).tally hplan).fits
      rw [plan.geometry.advance_of_le (Nat.le_of_lt hfits.start_lt), Except.ok.injEq, hstart,
        h.lawful.planned_geometry hd ho (planned?_mem hplan)] at hadvance
      simp only [settledTo, hd, ↓reduceIte]
      rw [← hadvance, Drain.positionOf, Drain.positionOf, Nat.mod_add_mod, Nat.add_assoc]

/-- A transfer that succeeds has handed out all that was unread when it read the write position. -/
theorem ended {outcome : Except Halt Transfer}
    (h : Flowing ring drain d k (⟨n, .ended outcome, drains, source⟩ :: past)) (hd : drainOf n past = some d)
    (hf : Flows drain d k past (deeds n past)) : Rest drain d k (⟨n, .ended outcome, drains, source⟩ :: past) := by
  have ho := h.tail.opened_of_drainOf hd
  have htaken := (taken_of_untold k past (e := ⟨n, .ended outcome, drains, source⟩) rfl).1
  cases outcome with
  | error cause => exact absurd rfl (h.succeeds.head hd cause)
  | ok report =>
    have hserved : Served drain d k past (cursorAt d drain (⟨n, .ended (.ok report), drains, source⟩ :: past)) := by
      rcases (h.lawful.allowed hd ho rfl).2 with ⟨position, rfl, hlatest, -, hbase⟩ | hlatest
      · exact h.tail.served_of_empty hd hf hlatest hbase
      · exact h.tail.served_of_delivered hd hf hlatest
    simp only [Rest, h.lawful.opened?_cons ho]
    exact ⟨⟨hf.1.le, hf.1.lt⟩, htaken.trans hserved.taken, hserved.cursor, hserved.all⟩

theorem stages : Stages (.ring ring) d (Flowing ring drain d k) (Flows drain d k) (Rest drain d k) where
  tail := tail
  lawful h := h.lawful
  oneByOne h := h.oneByOne
  nil := ⟨rfl, rfl, rfl⟩
  apart_running := apart_flows
  apart_resting := apart_rest
  began := began
  own := own
  ended := ended

/-- When all transfers are over, the sink has taken all that was handed to it, and it is the whole stream if nothing was
written since a transfer last read the write position. -/
theorem taken_eq (h : Flowing ring drain d k past) (hover : ∀ n, drainOf n past = some d → Over n past)
    (hcaught : caughtUp d past = true) : taken k past = stream d past := by
  have hrest := (stages.stage h).resting hover
  cases ho : opened? d past with
  | none =>
    simp only [Rest, ho] at hrest
    cases hrest.2.2.symm.trans hcaught
  | some first =>
    simp only [Rest, ho] at hrest
    obtain ⟨-, hserved⟩ := hrest
    rw [hserved.taken, hserved.all hcaught, List.take_length]

end Flowing

end PagedRing.Session
