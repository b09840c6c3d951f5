import PagedRing.Proofs.Framing
import PagedRing.Proofs.History

/-!
# Consumers of lines

What a history tells of a sink for lines that transfers use one at a time: the bytes that it has taken since it last
refused a chunk, and the lines that its consumer was offered.

* `sinkOf`: the sink to which a step transfers.
* `taken`, `called`, `earlier`: the bytes that a sink has taken and the lines that its consumer was offered.
* `Framed`: what an event of a sink without a limit may be, where it stands.
* `Local`: what is known of a sink survives all events that are none of its own.
* `Standing`: a sink between two chunks.
-/

namespace PagedRing

/-- The sink to which a transfer begins with an event. -/
def Event.sink? : Event → Option Nat
  | .began _ sink => some sink
  | _ => none

/-- Whether an event changes what a sink has taken or what its consumer was offered. -/
def Event.tells : Event → Bool
  | .line _ | .accepted _ _ | .refused _ _ _ _ _ => true
  | _ => false

/-- Whether an event says that a chunk was refused. -/
def Event.refuses : Event → Bool
  | .refused _ _ _ _ _ => true
  | _ => false

namespace Session

/-- The sink to which a step transfers. -/
def sinkOf (n : Nat) (past : List Entry) : Option Nat := (deeds n past).findSome? Event.sink?

/-! ## What a sink has taken -/

/-- The bytes that a sink has taken since it last refused a chunk. -/
def taken (k : Nat) : List Entry → Bytes
  | [] => []
  | e :: past =>
    if sinkOf e.step past = some k then
      match e.event with
      | .accepted _ bytes => taken k past ++ bytes
      | .refused _ _ _ _ _ => []
      | _ => taken k past
    else taken k past

/-- The lines that the consumer of a sink was offered since the sink last refused a chunk. -/
def called (k : Nat) : List Entry → List Bytes
  | [] => []
  | e :: past =>
    if sinkOf e.step past = some k then
      match e.event with
      | .line bytes => called k past ++ [bytes]
      | .refused _ _ _ _ _ => []
      | _ => called k past
    else called k past

/-- The lines that the consumer of a sink without a limit had accepted when the sink last refused a chunk: the last
line that was offered before is the one that the consumer refused. -/
def earlier (k : Nat) : List Entry → List Bytes
  | [] => []
  | e :: past =>
    if sinkOf e.step past = some k then
      match e.event with
      | .refused _ _ _ _ _ => earlier k past ++ (called k past).dropLast
      | _ => earlier k past
    else earlier k past

section

variable {n m k : Nat} {e : Entry} {past : List Entry} {event : Event} {drains : Array (Option Drain)}
  {source : Source}

theorem sinkOf_of_ne (h : e.step ≠ n) : sinkOf n (e :: past) = sinkOf n past := by
  simp only [sinkOf, deeds_of_ne h]

theorem sinkOf_began (d : Nat) : sinkOf n (⟨n, .began d k, drains, source⟩ :: past) = some k := by
  rw [sinkOf, deeds_self rfl]; rfl

/-- Only its beginning tells the sink of a step. -/
theorem sinkOf_of_sink? (h : e.event.sink? = none) : sinkOf n (e :: past) = sinkOf n past := by
  by_cases hn : e.step = n ∧ e.event.isLine = false
  · simp [sinkOf, deeds, hn, h]
  · simp only [sinkOf, deeds, hn, ↓reduceIte]

/-- A step transfers to a sink only if it began to. -/
theorem sink?_of_sinkOf (h : sinkOf n past = some k) : ∃ e ∈ past, e.step = n ∧ e.event.sink? = some k := by
  obtain ⟨event, hev, hk⟩ := List.exists_of_findSome?_eq_some h
  obtain ⟨e, he, hn, rfl, -⟩ := mem_deeds.mp hev
  exact ⟨e, he, hn, hk⟩

/-- An event of a step that does not use a sink leaves alone what the sink has taken and what its consumer was
offered. -/
theorem taken_of_other (h : sinkOf e.step past ≠ some k) : taken k (e :: past) = taken k past ∧
    called k (e :: past) = called k past ∧ earlier k (e :: past) = earlier k past := by
  simp only [taken, called, earlier, h, ↓reduceIte, and_self]

/-- So does an event that tells nothing. -/
theorem taken_of_untold (k : Nat) (past : List Entry) (h : e.event.tells = false) :
    taken k (e :: past) = taken k past ∧ called k (e :: past) = called k past ∧
      earlier k (e :: past) = earlier k past := by
  by_cases hk : sinkOf e.step past = some k
  · simp only [taken, called, earlier, hk, ↓reduceIte]
    generalize e.event = event at h
    cases event <;> first | exact ⟨rfl, rfl, rfl⟩ | cases h
  · exact taken_of_other hk

theorem taken_line (h : sinkOf n past = some k) (bytes : Bytes) (drains : Array (Option Drain))
    (source : Source) :
    taken k (⟨n, .line bytes, drains, source⟩ :: past) = taken k past ∧
      called k (⟨n, .line bytes, drains, source⟩ :: past) = called k past ++ [bytes] ∧
      earlier k (⟨n, .line bytes, drains, source⟩ :: past) = earlier k past := by
  simp only [taken, called, earlier, h, ↓reduceIte, and_self]

theorem taken_accepted (h : sinkOf n past = some k) (span : Span) (bytes : Bytes) (drains : Array (Option Drain))
    (source : Source) :
    taken k (⟨n, .accepted span bytes, drains, source⟩ :: past) = taken k past ++ bytes ∧
      called k (⟨n, .accepted span bytes, drains, source⟩ :: past) = called k past ∧
      earlier k (⟨n, .accepted span bytes, drains, source⟩ :: past) = earlier k past := by
  simp only [taken, called, earlier, h, ↓reduceIte, and_self]

theorem taken_refused (h : sinkOf n past = some k) (start stop count len : Nat) (cause : SinkError)
    (drains : Array (Option Drain)) (source : Source) :
    taken k (⟨n, .refused start stop count len cause, drains, source⟩ :: past) = [] ∧
      called k (⟨n, .refused start stop count len cause, drains, source⟩ :: past) = [] ∧
      earlier k (⟨n, .refused start stop count len cause, drains, source⟩ :: past) =
        earlier k past ++ (called k past).dropLast := by
  simp only [taken, called, earlier, h, ↓reduceIte, and_self]

end

/-! ## What events of a sink may be -/

/-- What an event of a sink without a limit may be: while a chunk is offered, the consumer is offered the lines that
the chunk completes, in order; an accepted chunk has been offered all of them, and one that was refused at least one.
Transfers use the sink one at a time. -/
def Framed (k : Nat) (e : Entry) (past : List Entry) : Prop :=
  (e.event.sink? = some k → ∀ m, sinkOf m past = some k → Over m past) ∧
  (sinkOf e.step past = some k →
    match e.event with
    | .line bytes => ∃ span chunk ds, deeds e.step past = .offered span chunk :: ds ∧
        called k past ++ [bytes] <+: lines (taken k past ++ chunk)
    | .accepted _ chunk => called k past = lines (taken k past ++ chunk)
    | .refused _ _ _ _ _ => ∃ bytes rest, called k past = lines (taken k past) ++ bytes :: rest
    | _ => True)

/-- Whether an event is none of a sink's: it neither begins a transfer to it nor belongs to one. -/
def Foreign (k : Nat) (e : Entry) (past : List Entry) : Prop :=
  sinkOf e.step past ≠ some k ∧ e.event.sink? ≠ some k

/-- Whether something that is known of a history survives all events that are none of a sink's. -/
def Local (k : Nat) (p : List Entry → Prop) : Prop := ∀ e past, Foreign k e past → p past → p (e :: past)

section

variable {n m k : Nat} {e : Entry} {past new : List Entry} {p q : List Entry → Prop}

theorem Framed.of_foreign (h : Foreign k e past) : Framed k e past :=
  ⟨fun heq => absurd heq h.2, fun heq => absurd heq h.1⟩

theorem Framed.of_untold (h : e.event.tells = false) (hb : e.event.sink? = none) : Framed k e past := by
  refine ⟨fun heq => absurd (hb.symm.trans heq) nofun, fun _ => ?_⟩
  obtain ⟨n, event, drains, source⟩ := e
  cases event <;> trivial

theorem Foreign.sinkOf_iff (h : Foreign k e past) : sinkOf n (e :: past) = some k ↔ sinkOf n past = some k := by
  by_cases hb : e.event.sink? = none
  · rw [sinkOf_of_sink? hb]
  · obtain ⟨m, event, drains, source⟩ := e
    cases event with
    | began d j =>
      by_cases hn : m = n
      · subst hn
        rw [sinkOf_began]
        exact ⟨fun heq => absurd heq h.2, fun heq => absurd heq h.1⟩
      · rw [sinkOf_of_ne hn]
    | _ => exact absurd rfl hb

theorem Foreign.ne (h : Foreign k e past) (hn : sinkOf n past = some k) : e.step ≠ n := by
  rintro rfl
  exact h.1 hn

theorem Local.and (hp : Local k p) (hq : Local k q) : Local k fun past => p past ∧ q past :=
  fun e past h hpq => ⟨hp e past h hpq.1, hq e past h hpq.2⟩

/-- What is known of a sink survives what others do, if they begin no transfer to it and have numbers of their own. -/
theorem Local.append (hp : Local k p) (hnew : ∀ e ∈ new, e.event.sink? ≠ some k ∧ ∀ e' ∈ past, e'.step ≠ e.step)
    (h : p past) : p (new ++ past) := by
  induction new with
  | nil => exact h
  | cons e new ih =>
    obtain ⟨hsink, hstep⟩ := hnew e List.mem_cons_self
    refine hp e _ ⟨fun hk => ?_, hsink⟩ (ih fun e' he' => hnew e' (List.mem_cons_of_mem _ he'))
    obtain ⟨e', he', hn, hk'⟩ := sink?_of_sinkOf hk
    rcases List.mem_append.mp he' with he' | he'
    · exact (hnew e' (List.mem_cons_of_mem _ he')).1 hk'
    · exact hstep e' he' hn

/-- What a step did that uses the sink. -/
theorem local_deeds (n k : Nat) (ds : List Event) : Local k fun past => sinkOf n past = some k ∧ deeds n past = ds :=
  fun _ _ h hn => ⟨h.sinkOf_iff.mpr hn.1, by rw [deeds_of_ne (h.ne hn.1)]; exact hn.2⟩

theorem local_framed (k : Nat) : Local k (Throughout (Framed k)) := fun _ _ h hp => hp.cons (.of_foreign h)

/-- Whether all transfers to a sink are over but for one. -/
def Sole (n k : Nat) (past : List Entry) : Prop := ∀ m, sinkOf m past = some k → m = n ∨ Over m past

theorem local_sole (n k : Nat) : Local k (Sole n k) :=
  fun _ _ h hs m hm => (hs m (h.sinkOf_iff.mp hm)).imp_right Over.cons

end

/-! ## Sinks between two chunks -/

/-- How a sink for lines stands between two chunks, if it has no limit: it waits with the unfinished line of what it has
taken, and its consumer was offered all complete lines. -/
def Standing (k : Nat) (sink : Sink) (past : List Entry) : Prop :=
  ∀ framer, sink.intake = .lines framer → framer.limit = none → Throughout (Framed k) past ∧
    called k past = lines (taken k past) ∧ framer.pending.toList = unfinished (taken k past) ∧
    sink.kept.toList = earlier k past ++ called k past

section

variable {n k : Nat} {e : Entry} {past : List Entry} {sink : Sink}

theorem local_standing (k : Nat) (sink : Sink) : Local k (Standing k sink) := by
  intro e past h hs framer hintake hlimit
  obtain ⟨hframed, hcalled, hpending, hkept⟩ := hs framer hintake hlimit
  obtain ⟨htaken, hcalled', hearlier⟩ := taken_of_other h.1
  rw [htaken, hcalled', hearlier]
  exact ⟨hframed.cons (.of_foreign h), hcalled, hpending, hkept⟩

/-- Events that tell nothing leave a sink as it is. -/
theorem Standing.of_untold (h : Standing k sink past) (hu : e.event.tells = false) (hb : e.event.sink? = none) :
    Standing k sink (e :: past) := by
  intro framer hintake hlimit
  obtain ⟨hframed, hcalled, hpending, hkept⟩ := h framer hintake hlimit
  obtain ⟨htaken, hcalled', hearlier⟩ := taken_of_untold k past hu
  rw [htaken, hcalled', hearlier]
  exact ⟨hframed.cons (.of_untold hu hb), hcalled, hpending, hkept⟩

/-- So does the beginning of a transfer to it, when all others are over. -/
theorem Standing.began (h : Standing k sink past) (hn : deeds n past = [])
    (hover : ∀ m, sinkOf m past = some k → Over m past) {d : Nat} {drains : Array (Option Drain)} {source : Source} :
    Standing k sink (⟨n, .began d k, drains, source⟩ :: past) := by
  intro framer hintake hlimit
  obtain ⟨hframed, hcalled, hpending, hkept⟩ := h framer hintake hlimit
  have hnone : sinkOf n past ≠ some k := by rw [sinkOf, hn]; nofun
  obtain ⟨htaken, hcalled', hearlier⟩ := taken_of_other (e := ⟨n, .began d k, drains, source⟩) hnone
  rw [htaken, hcalled', hearlier]
  exact ⟨hframed.cons ⟨fun _ => hover, fun heq => absurd heq hnone⟩, hcalled, hpending, hkept⟩

/-- Before the first transfer to a sink. -/
theorem Throughout.framed_of_unused (h : ∀ e ∈ past, e.event.sink? ≠ some k) :
    Throughout (Framed k) past ∧ taken k past = [] ∧ called k past = [] ∧ earlier k past = [] := by
  induction past with
  | nil => exact ⟨.nil, rfl, rfl, rfl⟩
  | cons e past ih =>
    obtain ⟨hframed, htaken, hcalled, hearlier⟩ := ih fun e' he' => h e' (List.mem_cons_of_mem _ he')
    have hforeign : Foreign k e past := by
      refine ⟨fun hk => ?_, h e List.mem_cons_self⟩
      obtain ⟨e', he', -, hk'⟩ := sink?_of_sinkOf hk
      exact h e' (List.mem_cons_of_mem _ he') hk'
    obtain ⟨htaken', hcalled', hearlier'⟩ := taken_of_other hforeign.1
    exact ⟨hframed.cons (.of_foreign hforeign), htaken'.trans htaken, hcalled'.trans hcalled, hearlier'.trans hearlier⟩

/-- A new sink has taken nothing. -/
theorem Standing.of_unused (h : ∀ e ∈ past, e.event.sink? ≠ some k) (kind : SinkKind) (script : Script) :
    Standing k (.new kind script) past := by
  obtain ⟨hframed, htaken, hcalled, hearlier⟩ := Throughout.framed_of_unused h
  intro framer hintake _
  rw [htaken, hcalled, hearlier]
  cases kind with
  | chunks => cases hintake
  | lines limit =>
    cases hintake
    exact ⟨hframed, rfl, rfl, rfl⟩

end

end Session

end PagedRing
