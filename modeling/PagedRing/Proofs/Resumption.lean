import PagedRing.Proofs.Guards
import PagedRing.Proofs.Piping
import PagedRing.Proofs.Retry

/-!
# Lines across retries

A sink for lines that refuses a chunk gives up its unfinished line, while its drain, if it is not shared, goes back to
its cursor. The unfinished line may have come from a transfer that had succeeded, so what the sink is handed next need
not start at the start of a line: then the first item that the consumer is offered is a fragment.

* `restart`: the byte of the stream at which the cursor stood when the sink last refused a chunk.
* `Resuming.stage`: what the sink has taken since.
* `resumed_lines`: the consumer is offered the lines of the stream from there on, and if every refusal found the cursor
  at the start of a line, those are lines of the stream and none of them gets lost.
* `not_lines_of_stream`: a session in which the consumer is offered a fragment.
-/

namespace PagedRing.Session

variable {ring : Ring} {drain : Drain} {n d k : Nat} {e : Entry} {past before : List Entry} {ds : List Event}
  {event : Event} {drains : Array (Option Drain)} {source : Source}

/-- The number of bytes that a drain had settled when its sink last refused a chunk. -/
def restart (d k : Nat) : List Entry → Nat
  | [] => 0
  | e :: past =>
    match e.event with
    | .refused _ _ _ _ _ => if sinkOf e.step past = some k then settledLen d past else restart d k past
    | _ => restart d k past

theorem settledLen_le_cons (d : Nat) (e : Entry) (past : List Entry) :
    settledLen d past ≤ settledLen d (e :: past) := by
  obtain ⟨n, event, drains, source⟩ := e
  cases event with
  | ended outcome =>
    cases outcome with
    | ok report =>
      rw [settledLen]
      dsimp only
      split <;> omega
    | error cause => exact Nat.le_refl _
  | _ => exact Nat.le_refl _

theorem restart_le (d k : Nat) (past : List Entry) : restart d k past ≤ settledLen d past := by
  induction past with
  | nil => exact Nat.le_refl _
  | cons e past ih =>
    have hle := settledLen_le_cons d e past
    unfold restart
    split
    · split <;> omega
    · omega

/-- Nothing but its end comes after a refusal. -/
theorem Course.ends_of_refused {start stop count len : Nat} {cause : SinkError}
    (h : Course (event :: .refused start stop count len cause :: ds)) : event.ends = true := by
  cases h with
  | ended => rfl
  | loaded _ _ hr | prompted _ _ hr | planned _ hr => cases hr
  | sampled _ _ hr => rcases hr with hr | ⟨_, hr⟩ <;> cases hr
  | offered _ _ hh | delivered _ hh => rcases hh with ⟨_, _, hh⟩ | ⟨_, _, _, hh⟩ <;> cases hh

/-- A piece of a string and the piece after it. -/
theorem take_drop_append {bytes : Bytes} {r n m : Nat} (hr : r ≤ n) (hn : n ≤ bytes.length) :
    (bytes.take n).drop r ++ (bytes.drop n).take m = (bytes.take (n + m)).drop r := by
  rw [List.take_add, List.drop_append_of_le_length (by rw [List.length_take]; omega)]

theorem take_eq_append {bytes : Bytes} {r n : Nat} (hr : r ≤ n) :
    bytes.take n = bytes.take r ++ (bytes.take n).drop r := by
  have h := (List.take_append_drop r (bytes.take n)).symm
  rwa [List.take_take, Nat.min_eq_left hr] at h

/-! ## What a sink has taken since it last refused a chunk -/

/-- What the sink of a running transfer has taken, given what the transfer has done: the bytes settled since the last
refusal and those that the transfer has delivered, or nothing if the sink has just refused a chunk. -/
inductive Carrying (d k : Nat) (past : List Entry) : List Event → Prop
  | taking {ds : List Event} (none : ∀ ev ∈ ds.head?, ev.refuses = false)
      (taken : taken k past = ((stream d past).take (settledLen d past)).drop (restart d k past) ++
        content (chunksAccepted ds)) : Carrying d k past ds
  | dropped {start stop count len : Nat} {cause : SinkError} {ds : List Event} (taken : taken k past = [])
      (restart : restart d k past = settledLen d past) :
      Carrying d k past (.refused start stop count len cause :: ds)

/-- What a sink has taken between two transfers: the bytes settled since the last refusal. -/
def Carried (d k : Nat) (past : List Entry) : Prop :=
  taken k past = ((stream d past).take (settledLen d past)).drop (restart d k past)

/-- A drain that is not shared and piped into a sink, and a writer that keeps less than a turn ahead of it. -/
structure Resuming (ring : Ring) (drain : Drain) (d k : Nat) (past : List Entry) : Prop
    extends Piping ring drain d k past where
  mode : drain.mode ≠ .concurrent
  keptUp : KeptUp drain.geometry d (settledLen d) past

namespace Resuming

theorem tail (h : Resuming ring drain d k (e :: past)) : Resuming ring drain d k past :=
  ⟨h.toPiping.tail, h.mode, h.keptUp.tail⟩

theorem suffix (h : Resuming ring drain d k past) (hs : before <:+ past) : Resuming ring drain d k before := by
  obtain ⟨new, rfl⟩ := hs
  induction new with
  | nil => exact h
  | cons e new ih => exact ih h.tail

theorem retained (h : Resuming ring drain d k past) (ho : opened? d past = some drain) : Retained drain d past :=
  h.lawful.retained ho h.mode h.geometry h.abreast h.keptUp

/-- The bytes settled stay as they are. -/
theorem settled_stream (h : Resuming ring drain d k (e :: past)) :
    (stream d (e :: past)).take (settledLen d past) = (stream d past).take (settledLen d past) := by
  cases ho : opened? d past with
  | none => rw [(h.tail.lawful.unsettled_of_unopened ho).1, List.take_zero, List.take_zero]
  | some first =>
    obtain ⟨bytes, hbytes, -⟩ := h.apart_stream (by rw [ho]; rfl)
    have hr := h.tail.retained (by rw [ho, h.tail.opened first ho])
    rw [hbytes, List.take_append_of_le_length hr.le]

/-- What is none of the transfers' leaves the cursor alone. -/
theorem apart (h : Resuming ring drain d k (e :: past)) (ha : Apart d e past) :
    restart d k (e :: past) = restart d k past ∧ settledLen d (e :: past) = settledLen d past := by
  obtain ⟨n, event, drains, source⟩ := e
  rcases h.apart_cases ha with ⟨bytes, rfl⟩ | ⟨hd, hk⟩
  · exact ⟨rfl, rfl⟩
  · cases event with
    | refused => exact ⟨by simp only [restart, hk, ↓reduceIte], rfl⟩
    | ended outcome => cases outcome <;> simp only [restart, settledLen, hd, ↓reduceIte, and_self]
    | _ => exact ⟨rfl, rfl⟩

/-- An event of a running transfer that takes no chunk changes nothing about what the sink has taken. -/
theorem own_untold (h : Carrying d k past (deeds n past)) (hc : Course (event :: deeds n past))
    (hends : event.ends = false) (hr : event.refuses = false) (ha : event.accepts = false)
    (htaken : taken k (⟨n, event, drains, source⟩ :: past) = taken k past)
    (hrestart : restart d k (⟨n, event, drains, source⟩ :: past) = restart d k past)
    (hset : settledLen d (⟨n, event, drains, source⟩ :: past) = settledLen d past)
    (hstream : stream d (⟨n, event, drains, source⟩ :: past) = stream d past) :
    Carrying d k (⟨n, event, drains, source⟩ :: past) (event :: deeds n past) := by
  generalize deeds n past = ds at h hc ⊢
  cases h with
  | taking none hcarried =>
    refine .taking (by rintro ev ⟨⟩; exact hr) ?_
    have haccepted : chunksAccepted (event :: ds) = chunksAccepted ds := by
      cases event <;> first | rfl | cases ha
    rw [htaken, hrestart, hset, hstream, haccepted, hcarried]
  | dropped =>
    rw [hc.ends_of_refused] at hends
    cases hends

/-- What an event of a running transfer does to what its sink has taken. -/
theorem own (h : Resuming ring drain d k (e :: past)) (hd : drainOf e.step past = some d)
    (hl : e.event.isLine = false) (hends : e.event.ends = false) (hs : Carrying d k past (deeds e.step past)) :
    Carrying d k (e :: past) (e.event :: deeds e.step past) := by
  have ho := h.tail.toPiping.opened_of_drainOf hd
  have hsink := h.tail.piped.drainOf_iff.mp hd
  have hlaw := h.lawful
  obtain ⟨hc, -⟩ := hlaw.allowed hd ho hl
  obtain ⟨n, event, drains, source⟩ := e
  cases event with
  | line bytes => cases hl
  | ended outcome => cases hends
  | opened | wrote => cases hc
  | accepted span bytes =>
    obtain ⟨htaken, -⟩ := taken_accepted hsink span bytes drains source
    dsimp only at hs hc ⊢
    generalize deeds n past = ds at hs hc ⊢
    cases hs with
    | taking none hcarried =>
      refine .taking (by rintro ev ⟨⟩; rfl) ?_
      rw [htaken, hcarried, chunksAccepted, content_append, content_singleton, List.append_assoc]
      rfl
    | dropped => cases hc.ends_of_refused
  | refused start stop count len cause =>
    refine .dropped (taken_refused hsink start stop count len cause drains source).1 ?_
    simp only [restart, hsink, ↓reduceIte]
    rfl
  | _ => exact own_untold hs hc rfl rfl rfl (taken_of_untold k past rfl).1 rfl rfl rfl

/-- What a sink has taken when a transfer ends. -/
theorem ended {outcome : Except Halt Transfer}
    (h : Resuming ring drain d k (⟨n, .ended outcome, drains, source⟩ :: past)) (hd : drainOf n past = some d)
    (hs : Carrying d k past (deeds n past)) : Carried d k (⟨n, .ended outcome, drains, source⟩ :: past) := by
  have ho := h.tail.toPiping.opened_of_drainOf hd
  have hlaw := h.lawful
  have hout := (hlaw.allowed hd ho rfl).2
  have htaken := (taken_of_untold k past (e := ⟨n, .ended outcome, drains, source⟩) rfl).1
  unfold Carried
  rw [htaken]
  show _ = ((stream d past).take (settledLen d _)).drop (restart d k past)
  cases outcome with
  | ok report =>
    have hlen : settledLen d (⟨n, .ended (.ok report), drains, source⟩ :: past) = settledLen d past + report.len := by
      simp only [settledLen, hd, ↓reduceIte]
    have hr := h.tail.retained ho
    have hcontent := (hlaw.content_of_succeeded hd ho h.mode h.geometry h.abreast.tail hr).1
    rw [hlen]
    generalize hds : deeds n past = ds at hs hcontent
    cases hs with
    | taking none hcarried =>
      rw [hcarried, hcontent, take_drop_append (restart_le d k past) hr.le]
    | dropped =>
      rcases hout with ⟨position, -, ⟨_, _, before, rfl⟩, -⟩ | ⟨_, _, before, rfl⟩
      · rw [deeds_self rfl] at hds
        cases hds
      · rw [deeds_self rfl] at hds
        cases hds
  | error cause =>
    show _ = ((stream d past).take (settledLen d past)).drop (restart d k past)
    have hfinished : cause ≠ .unfinished := by
      rintro rfl
      exact h.mode hout.1
    obtain ⟨start, stop, count, len, reason, _, _, before, rfl⟩ :=
      hlaw.refused_of_failed hd ho hfinished h.geometry fun expected hbeaten => h.mode hbeaten.shared
    rw [deeds_self rfl] at hs
    cases hs with
    | taking none => cases none _ rfl
    | dropped hnone hrestart =>
      rw [hnone, hrestart, List.drop_eq_nil_of_le]
      rw [List.length_take]
      omega

theorem stages : Stages (.ring ring) d (Resuming ring drain d k) (Carrying d k) (Carried d k) where
  tail := tail
  lawful h := h.lawful
  oneByOne h := h.oneByOne
  nil := rfl
  apart_running {e past ds} h ha _ hs := by
    obtain ⟨hrestart, hset⟩ := h.apart ha
    have hstream := h.settled_stream
    have htaken := h.apart_taken ha
    cases hs with
    | taking none hcarried => exact .taking none (by rw [htaken, hrestart, hset, hstream, hcarried])
    | dropped hnone heq => exact .dropped (htaken.trans hnone) (by rw [hrestart, hset, heq])
  apart_resting {e past} h ha hs := by
    obtain ⟨hrestart, hset⟩ := h.apart ha
    rw [Carried, h.apart_taken ha, hrestart, hset, h.settled_stream]
    exact hs
  began {n k' drains source past} h hs := by
    refine .taking (by rintro ev ⟨⟩; rfl) ?_
    rw [(taken_of_untold k past rfl).1]
    exact (show taken k past = _ from hs).trans (List.append_nil _).symm
  own := own
  ended := ended

/-- While a chunk is offered, what the sink has taken and the chunk are the first bytes after the restart. -/
theorem offered_isPrefix (h : Resuming ring drain d k past) {span : Span} {chunk : Bytes}
    (hds : deeds n past = .offered span chunk :: ds) (hd : drainOf n past = some d) :
    taken k past ++ chunk <+: (stream d past).drop (restart d k past) := by
  have hr := h.retained (h.toPiping.opened_of_drainOf hd)
  have hcourse := h.lawful.course hd
  rw [hds] at hcourse
  have hno : ¬ Over n past := by
    rintro ⟨outcome, hmem⟩
    rw [hds] at hmem
    exact hcourse.unended ((List.mem_cons.mp hmem).resolve_left nofun)
  obtain ⟨plan, hplan⟩ := hcourse.planned_of_offered (by simp [chunksOffered])
  have hbytes := (hr.held n hd (fun hover => absurd hover hno) plan (by rw [hds]; exact hplan)).1.bytes
  have hrun := (stages.stage h).running n hd hno
  rw [hds] at hrun hbytes
  cases hrun with
  | taking none hcarried =>
    rw [hcarried, show chunksAccepted (.offered span chunk :: ds) = chunksOffered ds from hcourse.accepted_of_offered,
      List.append_assoc, ← content_singleton span chunk, ← content_append,
      show chunksOffered ds ++ [(span, chunk)] = chunksOffered (.offered span chunk :: ds) from rfl, hbytes,
      take_drop_append (restart_le d k past) hr.le, List.drop_take]
    exact List.take_prefix _ _

end Resuming

/-! ## Refusals at the start of a line -/

/-- Whether every refusal of a sink finds the cursor of its drain at the start of a line. -/
def Clean (d k : Nat) : List Entry → Prop :=
  Throughout fun e past => e.event.refuses = true → sinkOf e.step past = some k →
    unfinished ((stream d past).take (settledLen d past)) = []

/-- Only a refusal moves the restart, and adds to what the consumer had accepted before. -/
theorem restart_of_kept (h : ¬ (e.event.refuses = true ∧ sinkOf e.step past = some k)) :
    restart d k (e :: past) = restart d k past ∧ earlier k (e :: past) = earlier k past := by
  obtain ⟨n, event, drains, source⟩ := e
  cases event with
  | refused start stop count len cause =>
    have hk : sinkOf n past ≠ some k := fun hk => h ⟨rfl, hk⟩
    simp only [restart, earlier, hk, ↓reduceIte, and_self]
  | _ => exact ⟨rfl, by simp only [earlier, ite_self]⟩

namespace Resuming

/-- If every refusal found the cursor at the start of a line, the consumer has accepted all lines before the restart. -/
theorem recovered (h : Resuming ring drain d k past) (hf : Throughout (Framed k) past) (hclean : Clean d k past) :
    unfinished ((stream d past).take (restart d k past)) = [] ∧
      lines ((stream d past).take (restart d k past)) ⊆ earlier k past := by
  induction past with
  | nil => exact ⟨rfl, List.Subset.refl _⟩
  | cons e past ih =>
    obtain ⟨hstart, hbefore⟩ := ih h.tail hf.tail hclean.tail
    by_cases hrefused : e.event.refuses = true ∧ sinkOf e.step past = some k
    · obtain ⟨hr, hk⟩ := hrefused
      have hd := h.tail.piped.drainOf_iff.mpr hk
      have hhere := hclean.head hr hk
      obtain ⟨n, event, drains, source⟩ := e
      cases event with
      | refused start stop count len cause =>
        -- the lines before the cursor are those before the old restart, and those that the sink has taken since
        obtain ⟨bytes, rest, hcalled⟩ := hf.head.2 hk
        have ho := h.tail.toPiping.opened_of_drainOf hd
        have hcourse := (h.lawful.allowed hd ho rfl).1
        have hno := h.lawful.not_over rfl hd
        have hrun := (stages.stage h.tail).running n hd hno
        have htaken : lines (((stream d past).take (settledLen d past)).drop (restart d k past)) <+:
            lines (taken k past) := by
          generalize deeds n past = ds at hrun hcourse
          cases hrun with
          | taking none hcarried =>
            rw [hcarried]
            exact lines_isPrefix (List.prefix_append _ _)
          | dropped => cases hcourse.ends_of_refused
        obtain ⟨-, -, hearlier⟩ := taken_refused hk start stop count len cause drains source
        have hrestart : restart d k (⟨n, .refused start stop count len cause, drains, source⟩ :: past) =
            settledLen d past := by simp only [restart, hk, ↓reduceIte]
        rw [hrestart, hearlier]
        refine ⟨hhere, ?_⟩
        show lines ((stream d past).take (settledLen d past)) ⊆ _
        rw [take_eq_append (restart_le d k past), lines_append_of_start hstart]
        refine List.append_subset.mpr ⟨List.Subset.trans hbefore (List.subset_append_left _ _), ?_⟩
        refine List.Subset.trans htaken.subset (List.Subset.trans ?_ (List.subset_append_right _ _))
        rw [hcalled, List.dropLast_append_of_ne_nil (List.cons_ne_nil _ _)]
        exact List.subset_append_left _ _
      | _ => cases hr
    · obtain ⟨hrestart, hearlier⟩ := restart_of_kept (d := d) hrefused
      have hsame : (stream d (e :: past)).take (restart d k past) = (stream d past).take (restart d k past) := by
        have := congrArg (List.take (restart d k past)) h.settled_stream
        rwa [List.take_take, List.take_take, Nat.min_eq_left (restart_le d k past)] at this
      rw [hrestart, hearlier, hsame]
      exact ⟨hstart, hbefore⟩

end Resuming

/-! ## Whole sessions -/

/-- What a history tells of a sink for lines into which a drain is piped that is not shared, and that may refuse
chunks. -/
structure Resumed (d k : Nat) (past : List Entry) (pending : Array UInt8) (kept : Array Bytes) : Prop where
  /-- Since the last refusal, the consumer was offered the lines of the rest of the stream from the byte on at which
  the cursor stood then. -/
  offered : ∀ e before, e :: before <:+ past → ∀ bytes, e.event = .line bytes → sinkOf e.step before = some k →
    called k before ++ [bytes] <+: lines ((stream d before).drop (restart d k before))
  /-- It has accepted all of them that were settled, after those that it had accepted before. -/
  accepted : kept.toList = earlier k past ++ lines (((stream d past).take (settledLen d past)).drop (restart d k past))
  pending : pending.toList = unfinished (((stream d past).take (settledLen d past)).drop (restart d k past))
  /-- If every refusal found the cursor at the start of a line, the consumer is only offered lines of the stream. -/
  whole : Clean d k past → ∀ e before, e :: before <:+ past → ∀ bytes, e.event = .line bytes →
    sinkOf e.step before = some k → bytes ∈ lines (stream d before)
  /-- Then it has accepted every line up to the write position that the last successful transfer has read. -/
  complete : Clean d k past → ∀ before, LastRead d past before → ∀ line ∈ lines (stream d before), line ∈ kept.toList

variable {session : Session} {framer : LineFramer} {kept : Array Bytes}

/-- In every session on a ring, a sink for lines into which a drain is piped that is not shared resumes, after a
refusal, at the cursor of the drain. -/
theorem resumed_lines (h : Conduit session ring drain d k framer kept) (hm : drain.mode ≠ .concurrent)
    (hk : KeptUp drain.geometry d (settledLen d) session.past) : Resumed d k session.past framer.pending kept := by
  have hresuming : Resuming ring drain d k session.past := ⟨h.piping, hm, hk⟩
  obtain ⟨hframed, hcalled, hpending, hkept⟩ := h.standing
  have hcarried : taken k session.past = _ :=
    (Resuming.stages.stage hresuming).resting fun n hd => session.finished hd
  rw [hcalled, hcarried] at hkept
  rw [hcarried] at hpending
  have hoffered : ∀ e before, e :: before <:+ session.past → ∀ bytes, e.event = .line bytes →
      sinkOf e.step before = some k →
        called k before ++ [bytes] <+: lines ((stream d before).drop (restart d k before)) := by
    rintro ⟨n, event, drains, source⟩ before hs bytes rfl hn
    obtain ⟨span, chunk, ds, hds, hprefix⟩ := (hframed.suffix hs).head.2 hn
    have hbefore := hresuming.suffix ((List.suffix_cons _ before).trans hs)
    exact hprefix.trans (lines_isPrefix (hbefore.offered_isPrefix hds (hbefore.piped.drainOf_iff.mpr hn)))
  refine ⟨hoffered, hkept, hpending, fun hclean e before hs bytes hline hn => ?_,
    fun hclean before hread line hmem => ?_⟩
  · have hs' := (List.suffix_cons e before).trans hs
    have hstart := ((hresuming.suffix hs').recovered (hframed.suffix hs') (hclean.suffix hs')).1
    have hmem := (hoffered e before hs bytes hline hn).subset (List.mem_append_right _ (List.mem_singleton_self bytes))
    rw [← List.take_append_drop (restart d k before) (stream d before), lines_append_of_start hstart]
    exact List.mem_append_right _ hmem
  · have horder := h.lawful.inOrder h.opened hm h.geometry h.abreast hk
    obtain ⟨hstart, hlines⟩ := hresuming.recovered hframed hclean
    rw [← horder.upTo before hread, horder.delivered, take_eq_append (restart_le d k session.past),
      lines_append_of_start hstart] at hmem
    rw [hkept]
    rcases List.mem_append.mp hmem with hmem | hmem
    · exact List.mem_append_left _ (hlines hmem)
    · exact List.mem_append_right _ hmem

/-- A ring of eight bytes in which the consumer of a sink refuses a line at first, and accepts it when the transfer is
tried again. -/
def reoffered : Session where
  geometry := octet
  source := .ring (.zeros octet)
  script := []
  steps := [.openDrain .sequential none none, .openSink (.lines none) [.fail 0 ⟨.other, "full"⟩],
    .write [97, 10, 98], .transfer 0 0 none, .transfer 0 0 none]

theorem reoffered_conduit :
    Conduit reoffered (.zeros octet) ⟨octet, 0, .sequential (.zeros 1)⟩ 0 0 ⟨#[98], none⟩ #[[97]] where
  source := rfl
  opened := by cbv
  geometry := rfl
  abreast := Throughout.of_check (by cbv)
  piped := Piped.of_check (by cbv)
  spares := by simp [Spares, reoffered, Step.Spares, Script.Spares, Cue.Spares]
  sink := ⟨[], 2, by cbv⟩
  unlimited := rfl

theorem resumed_lines_reoffered : Resumed 0 0 reoffered.past #[98] #[[97]] ∧ Clean 0 0 reoffered.past :=
  ⟨resumed_lines reoffered_conduit DrainMode.noConfusion (Throughout.of_check (by cbv)), Throughout.of_check (by cbv)⟩

/-- The first two bytes of a line are delivered, and the consumer refuses the line when it is complete. -/
def fragmented : Session where
  geometry := octet
  source := .ring (.zeros octet)
  script := []
  steps := [.openDrain .sequential none none, .openSink (.lines none) [.fail 0 ⟨.other, "full"⟩], .write [97, 98],
    .transfer 0 0 none, .write [99, 10], .transfer 0 0 none, .transfer 0 0 none]

theorem fragmented_conduit :
    Conduit fragmented (.zeros octet) ⟨octet, 0, .sequential (.zeros 1)⟩ 0 0 ⟨#[], none⟩ #[[99]] where
  source := rfl
  opened := by cbv
  geometry := rfl
  abreast := Throughout.of_check (by cbv)
  piped := Piped.of_check (by cbv)
  spares := by simp [Spares, fragmented, Step.Spares, Script.Spares, Cue.Spares]
  sink := ⟨[], 2, by cbv⟩
  unlimited := rfl

/-- The last line that is offered there is what is left of the only line of the stream. -/
theorem fragmented_past : ∃ e before, e :: before <:+ fragmented.past ∧ e.event = .line [99] ∧
    sinkOf e.step before = some 0 ∧ lines (stream 0 before) = [[97, 98, 99]] := by
  have hsuffix := List.drop_suffix 3 fragmented.past
  have hevent : (fragmented.past.drop 3).head?.map Entry.event = some (.line [99]) := by cbv
  have hsink : (fragmented.past.drop 3).head?.map (fun e => sinkOf e.step (fragmented.past.drop 4)) =
      some (some 0) := by cbv
  have hlines : lines (stream 0 (fragmented.past.drop 4)) = [[97, 98, 99]] := by cbv
  rw [← List.tail_drop] at hsink hlines
  generalize fragmented.past.drop 3 = past at *
  cases past with
  | nil => cases hevent
  | cons e before => exact ⟨e, before, hsuffix, Option.some.inj hevent, Option.some.inj hsink, hlines⟩

/-- So the consumer may be offered what is no line of the stream. -/
theorem not_lines_of_stream : ¬ ∀ (session : Session) (ring : Ring) (drain : Drain) (d k : Nat) (framer : LineFramer)
    (kept : Array Bytes), Conduit session ring drain d k framer kept → drain.mode ≠ .concurrent →
      KeptUp drain.geometry d (settledLen d) session.past → ∀ e before, e :: before <:+ session.past →
        ∀ bytes, e.event = .line bytes → sinkOf e.step before = some k → bytes ∈ lines (stream d before) := by
  intro hall
  obtain ⟨e, before, hs, hevent, hsink, hlines⟩ := fragmented_past
  have hkept : KeptUp octet 0 (settledLen 0) fragmented.past := Throughout.of_check (by cbv)
  have hmem := hall fragmented _ _ 0 0 _ _ fragmented_conduit DrainMode.noConfusion hkept e before hs [99] hevent hsink
  rw [hlines] at hmem
  cases List.mem_singleton.mp hmem

end PagedRing.Session
