import PagedRing.Proofs.Account
import PagedRing.Proofs.Alike
import PagedRing.Proofs.Keeping

/-!
# Chunks that are noted and handed over

Transfers whose surroundings keep a record of the events that are noted and of the chunks that are handed to the sink.
The record changes nothing, and it shows that the sink is called once for each chunk that is noted: right after that, with
the bytes of the chunk, and right before its answer is noted.

* `Answered`: a record in which every chunk is noted and handed over, and then the answer is noted.
* `Host.recorded`: the same surroundings with a record beside their state.
* `Host.hands_as_noted`: transfers of both sorts of drains, in any surroundings.
-/

namespace PagedRing

/-! ## Records -/

/-- What a transfer does to its surroundings. -/
inductive Mark where
  /-- It notes an event. -/
  | noted (event : Event)
  /-- It hands a chunk to the sink, which gives an answer. -/
  | handed (bytes : Bytes) (answer : Except SinkError Unit)

/-- Whether a mark is about a chunk. -/
def Mark.ofChunk : Mark → Bool
  | .noted (.offered _ _) | .noted (.accepted _ _) | .noted (.refused _ _ _ _ _) | .handed _ _ => true
  | .noted _ => false

/-- What is done with one chunk: it is noted, it is handed over, and the answer of the sink is noted. -/
inductive Round : List Mark → Prop
  | accepted (span : Span) (bytes : Bytes) :
      Round [.noted (.offered span bytes), .handed bytes (.ok ()), .noted (.accepted span bytes)]
  | refused (span : Span) (bytes : Bytes) (cause : SinkError) (start stop taken len : Nat) :
      Round [.noted (.offered span bytes), .handed bytes (.error cause), .noted (.refused start stop taken len cause)]

/-- Whether one chunk after the other is noted, handed over and answered, and nothing else is noted about chunks, nor
handed over. -/
def Answered (record : List Mark) : Prop :=
  ∃ rounds : List (List Mark), (∀ round ∈ rounds, Round round) ∧ record.filter Mark.ofChunk = rounds.flatten

namespace Answered

variable {record : List Mark}

theorem nil : Answered [] := ⟨[], nofun, rfl⟩

theorem note (h : Answered record) {event : Event} (hother : (Mark.noted event).ofChunk = false) :
    Answered (record ++ [.noted event]) := by
  obtain ⟨rounds, hrounds, hrecord⟩ := h
  refine ⟨rounds, hrounds, ?_⟩
  rw [List.filter_append, hrecord, List.filter_singleton, hother]
  exact List.append_nil _

theorem round (h : Answered record) {marks : List Mark} (hround : Round marks) : Answered (record ++ marks) := by
  obtain ⟨rounds, hrounds, hrecord⟩ := h
  refine ⟨rounds ++ [marks], ?_, ?_⟩
  · exact List.forall_mem_append.mpr ⟨hrounds, List.forall_mem_singleton.mpr hround⟩
  · have hmarks : marks.filter Mark.ofChunk = marks := by cases hround <;> rfl
    rw [List.filter_append, hrecord, hmarks, List.flatten_append, List.flatten_singleton]

end Answered

namespace Host

variable {σ : Type} (host : Host σ)

/-- The same surroundings with a record. -/
def recorded : Host (σ × List Mark) where
  position s := ((host.position s.1).1, (host.position s.1).2, s.2)
  fetch number s := ((host.fetch number s.1).1, (host.fetch number s.1).2, s.2)
  accept bytes s :=
    ((host.accept bytes s.1).1, (host.accept bytes s.1).2, s.2 ++ [.handed bytes (host.accept bytes s.1).1])
  note event s := (host.note event s.1, s.2 ++ [.noted event])

/-- The record changes nothing. -/
theorem alike_recorded : host.Alike host.recorded fun s t => t.1 = s where
  position h := h ▸ ⟨rfl, rfl⟩
  fetch _ h := h ▸ ⟨rfl, rfl⟩
  accept _ h := h ▸ ⟨rfl, rfl⟩
  note _ _ h := h ▸ rfl

variable {host} in
/-- A fetch is not in the record. -/
theorem record_of_fetch {number : Nat} {answer : Except Fault Bytes} {s t : σ × List Mark}
    (h : host.recorded.fetch number s = (answer, t)) : t.2 = s.2 :=
  (congrArg (fun result => result.2.2) h).symm

variable {host} in
/-- A chunk that is noted and then handed over is in the record, with the answer. -/
theorem record_of_accept {span : Span} {bytes : Bytes} {answer : Except SinkError Unit} {s t : σ × List Mark}
    (h : host.recorded.accept bytes (host.recorded.note (.offered span bytes) s) = (answer, t)) :
    t.2 = s.2 ++ [.noted (.offered span bytes)] ++ [.handed bytes answer] := by
  obtain ⟨rfl, rfl⟩ := Prod.mk.inj h
  rfl

/-- Whatever a transfer does, each chunk that it notes is handed over, and the answer is noted. -/
theorem keeps_answered : host.recorded.Keeps fun s => Answered s.2 where
  position _ hs := hs
  note event s ha hs := by
    refine hs.note ?_
    cases event <;> first | rfl | cases ha
  handOut plan done delivered scratch s hs := by
    rcases @handOut_cases _ host.recorded plan done delivered scratch s with
      ⟨page, s₁, s₂, hfetch, -, haccept, heq⟩ | ⟨halt, fetched, t, heq, hstops⟩
    · rw [heq]
      show Answered (s₂.2 ++ [.noted (.accepted plan.head _)])
      rw [record_of_accept haccept, record_of_fetch hfetch, List.append_assoc, List.append_assoc]
      exact hs.round (.accepted _ _)
    · rw [heq]
      cases hstops [] with
      | faulted hfetch => exact record_of_fetch hfetch ▸ hs
      | malformed hfetch => exact record_of_fetch hfetch ▸ hs
      | @refused span _ page cause _ s₁ t hfetch _ haccept =>
        show Answered (t.2 ++ [.noted (.refused _ _ _ _ cause)])
        rw [record_of_accept haccept, record_of_fetch hfetch, List.append_assoc, List.append_assoc]
        exact hs.round (.refused _ _ _ _ _ _ _)

/-! ## Transfers -/

/-- The place of a cursor beside the record. -/
def recordedCell (cell : Concurrent.Cell σ) : Concurrent.Cell (σ × List Mark) :=
  ⟨fun s => cell.load s.1, fun position s => (cell.store position s.1, s.2)⟩

/-- Whether all transfers in these surroundings call the sink once for each chunk that they note, right after that and
with the bytes of the chunk, and then note that it was accepted or that it was refused, as the sink has answered. -/
structure HandsAsNoted : Prop where
  sequential : ∀ g cursor scratch s, ∃ record, Answered record ∧
    Sequential.transfer host.recorded g cursor scratch (s, []) =
      let (outcome, cursor, scratch, s) := Sequential.transfer host g cursor scratch s
      (outcome, cursor, scratch, s, record)
  concurrent : ∀ cell g attempts scratch s, ∃ record, Answered record ∧
    Concurrent.transfer host.recorded (recordedCell cell) g attempts scratch (s, []) =
      let (outcome, scratch, s) := Concurrent.transfer host cell g attempts scratch s
      (outcome, scratch, s, record)

theorem hands_as_noted : host.HandsAsNoted where
  sequential g cursor scratch s := by
    obtain ⟨houtcome, hcursor, hstate, hscratch⟩ :=
      host.alike_recorded.sequential g cursor scratch scratch (s := s) (t := (s, [])) rfl
    refine ⟨_, host.keeps_answered.sequential g cursor scratch (s := (s, [])) .nil, ?_⟩
    exact Prod.ext houtcome (Prod.ext hcursor (Prod.ext (hscratch rfl) (Prod.ext hstate rfl)))
  concurrent cell g attempts scratch s := by
    have hload : ∀ {s : σ} {t : σ × List Mark}, t.1 = s → (recordedCell cell).load t = cell.load s := fun h => h ▸ rfl
    have hstore : ∀ {s : σ} {t : σ × List Mark} (position : Nat), t.1 = s →
        ((recordedCell cell).store position t).1 = cell.store position s := fun _ h => h ▸ rfl
    obtain ⟨houtcome, hstate, hscratch⟩ :=
      host.alike_recorded.concurrent hload hstore g attempts scratch scratch (s := s) (t := (s, [])) rfl
    refine ⟨_, host.keeps_answered.concurrent (recordedCell cell) (fun _ _ hs => hs) g attempts scratch
      (s := (s, [])) .nil, ?_⟩
    exact Prod.ext houtcome (Prod.ext (hscratch rfl) (Prod.ext hstate rfl))

end Host

end PagedRing
