import PagedRing.Proofs.Tending

/-!
# What sinks do with chunks

A transfer has its sink for itself. Whatever the callbacks play, the consumer of a sink without a limit is offered the
lines that a chunk completes, in order, until it refuses one.

* `Attends`: what a transfer knows that uses a sink.
* `Amid`: what it knows while it offers a chunk.
* `Attends.accept`: what a sink does with a chunk.
* `Holds.keeps`: what a transfer knows between two chunks.
-/

namespace PagedRing.Session

variable {k n m : Nat} {s s₀ t : State} {player : Player} {event : Event} {p q : List Entry → Prop}

/-! ## Transfers that use a sink -/

/-- Whether a sink is one for lines that has no limit. -/
def Sink.Unlimited (sink : Sink) : Prop := ∃ framer, sink.intake = .lines framer ∧ framer.limit = none

/-- What a transfer knows that uses the sink; `p` is what it knows of the history. -/
structure Attends (k n : Nat) (s₀ : State) (p : List Entry → Prop) (s : State) : Prop where
  tended : Tended k s
  adds : Adds k s₀ s
  vacant : s₀.sinks[k]? ≠ some none
  first : s₀.clock ≤ n
  clock : n < s.clock
  out : s.sinks[k]? = some none
  own : sinkOf n s.past = some k
  sole : Sole n k s.past
  known : p s.past

namespace Attends

theorem mono (h : Attends k n s₀ p s) (hq : p s.past → q s.past) : Attends k n s₀ q s :=
  ⟨h.tended, h.adds, h.vacant, h.first, h.clock, h.out, h.own, h.sole, hq h.known⟩

/-- An event of the transfer itself. -/
theorem note (h : Attends k n s₀ p s) (event : Event) (hb : event.sink? = none)
    (hq : p s.past → q (⟨n, event, s.drains, s.source⟩ :: s.past)) : Attends k n s₀ q (s.note n event) := by
  refine ⟨h.tended.note_out h.clock h.out, h.adds.note h.first fun hnone => absurd hnone h.vacant, h.vacant, h.first,
    h.clock, h.out, ?_, ?_, ?_⟩
  · rw [State.past_note, sinkOf_of_sink? hb]
    exact h.own
  · intro m hm
    rw [State.past_note] at hm ⊢
    rw [sinkOf_of_sink? hb] at hm
    exact (h.sole m hm).imp_right Over.cons
  · rw [State.past_note]
    exact hq h.known

theorem same (h : Attends k n s₀ p s) (hp : t.past = s.past) (hs : t.sinks = s.sinks) (hc : t.clock = s.clock)
    (hscript : Script.Spares k t.script) : Attends k n s₀ p t :=
  ⟨h.tended.same hp (by rw [hs]) (Nat.le_of_eq hc.symm) hscript (by rw [hs]; exact h.tended.scripts),
    h.adds.same hp (by rw [hs]) (Nat.le_of_eq hc.symm), h.vacant, h.first, hc ▸ h.clock, by rw [hs]; exact h.out,
    hp ▸ h.own, hp ▸ h.sole, hp ▸ h.known⟩

/-- What a transfer knows of its sink survives callbacks, if it does not depend on what others do. -/
theorem undisturbed (hp : Local k p) : Undisturbed k (Attends k n s₀ p) where
  tended h := h.tended
  later h ht ha := by
    obtain ⟨hsole, hknown⟩ := ha.known h.tended h.out ((local_sole n k).and hp) ⟨h.sole, h.known⟩
    exact ⟨ht, h.adds.trans ha, h.vacant, h.first, Nat.lt_of_lt_of_le h.clock ha.clock, ha.shut h.out,
      by rw [ha.sinkOf h.clock]; exact h.own, hsole, hknown⟩
  same h hpast hs hc hscript := h.same hpast hs hc hscript

end Attends

/-! ## One chunk -/

/-- What a transfer knows of the history while it offers a chunk to a sink without a limit, after the lines `done`. -/
structure Amid (k n : Nat) (span : Span) (chunk bytes : Bytes) (before done : List Bytes) (past : List Entry) :
    Prop where
  offered : ∃ ds, sinkOf n past = some k ∧ deeds n past = .offered span chunk :: ds
  framed : Throughout (Framed k) past
  taken : taken k past = bytes
  called : called k past = lines bytes ++ done
  earlier : earlier k past = before

variable {span : Span} {chunk bytes : Bytes} {before done : List Bytes} {f : Frame} {sink : Sink} {past : List Entry}

theorem local_amid : Local k (Amid k n span chunk bytes before done) := by
  rintro e past hf ⟨⟨ds, hds⟩, hframed, htaken, hcalled, hearlier⟩
  obtain ⟨htaken', hcalled', hearlier'⟩ := taken_of_other hf.1
  exact ⟨⟨ds, local_deeds n k (.offered span chunk :: ds) e past hf hds⟩, local_framed k e past hf hframed,
    htaken'.trans htaken, hcalled'.trans hcalled, hearlier'.trans hearlier⟩

/-- The next line is one of those that the chunk completes. -/
theorem Amid.line (h : Amid k n span chunk bytes before done past) {line : Bytes} {rest : List Bytes}
    (hlines : lines (bytes ++ chunk) = lines bytes ++ (done ++ line :: rest)) {drains : Array (Option Drain)}
    {source : Source} :
    Amid k n span chunk bytes before (done ++ [line]) (⟨n, .line line, drains, source⟩ :: past) := by
  obtain ⟨⟨ds, hown, hds⟩, hframed, rfl, hcalled, rfl⟩ := h
  obtain ⟨htaken', hcalled', hearlier'⟩ := taken_line hown line drains source
  refine ⟨⟨ds, by rw [sinkOf_of_sink? rfl]; exact hown, by rw [deeds_line rfl]; exact hds⟩, hframed.cons ⟨nofun, ?_⟩,
    htaken', by rw [hcalled', hcalled, List.append_assoc], hearlier'⟩
  refine fun _ => ⟨span, chunk, ds, hds, rest, ?_⟩
  rw [hcalled, hlines]
  simp only [List.append_assoc, List.cons_append, List.nil_append]

/-- The lines that a chunk completes are offered one after the other, up to the first refusal. -/
theorem Attends.offerAll (hp : Tends k player) {ls : List Bytes}
    (h : Attends k n s₀ (Amid k n span chunk bytes before done) f.state) (hscript : Script.Spares k f.sink.script)
    (hlines : lines (bytes ++ chunk) = lines bytes ++ (done ++ ls))
    (hkept : f.sink.kept.toList = before ++ (lines bytes ++ done)) :
    ∃ outcome f', LineFramer.offerAll (fun line f => (f.note n (.line line)).offer player line) ls f = (outcome, f') ∧
      Script.Spares k f'.sink.script ∧
      match outcome with
      | .ok () => Attends k n s₀ (Amid k n span chunk bytes before (done ++ ls)) f'.state ∧
          f'.sink.kept.toList = before ++ (lines bytes ++ (done ++ ls))
      | .error _ => ∃ accepted line, Attends k n s₀ (Amid k n span chunk bytes before (accepted ++ [line])) f'.state ∧
          f'.sink.kept.toList = before ++ (lines bytes ++ accepted) := by
  induction ls generalizing done f with
  | nil => exact ⟨_, _, rfl, hscript, by rw [List.append_nil]; exact ⟨h, hkept⟩⟩
  | cons line ls ih =>
    have hnoted := h.note (.line line) rfl fun hamid => hamid.line hlines
    have hplayed : Attends k n s₀ (Amid k n span chunk bytes before (done ++ [line]))
        (playCues player (f.sink.script.due f.sink.calls) f.answers (f.note n (.line line)).state).2.2 :=
      (Attends.undisturbed local_amid).playCues hp (hscript.filter _) hnoted
    unfold LineFramer.offerAll Frame.offer
    dsimp only
    have hsame : (f.note n (.line line)).sink = f.sink ∧ (f.note n (.line line)).answers = f.answers := ⟨rfl, rfl⟩
    rw [hsame.1, hsame.2]
    generalize playCues player (f.sink.script.due f.sink.calls) f.answers (f.note n (.line line)).state = played at *
    obtain ⟨outcome, answers, s⟩ := played
    cases outcome with
    | ok =>
      rw [List.append_cons] at hlines ⊢
      refine ih hplayed (hscript.filter _) hlines ?_
      simp [hkept]
    | error cause => exact ⟨_, _, rfl, hscript.filter _, done, line, hplayed, hkept⟩

/-- An accepted chunk counts as taken. -/
theorem Amid.accepted (h : Amid k n span chunk bytes before done past) (sink : Sink)
    (hlines : lines (bytes ++ chunk) = lines bytes ++ done) {framer : LineFramer}
    (hintake : sink.intake = .lines framer) (hpending : framer.pending.toList = unfinished (bytes ++ chunk))
    (hkept : sink.kept.toList = before ++ (lines bytes ++ done)) {drains : Array (Option Drain)} {source : Source} :
    Standing k sink (⟨n, .accepted span chunk, drains, source⟩ :: past) := by
  obtain ⟨⟨ds, hown, -⟩, hframed, rfl, hcalled, rfl⟩ := h
  obtain ⟨htaken', hcalled', hearlier'⟩ := taken_accepted hown span chunk drains source
  intro framer' hintake' _
  obtain rfl : framer = framer' := Intake.lines.inj (hintake.symm.trans hintake')
  rw [htaken', hcalled', hearlier', hcalled, ← hlines]
  exact ⟨hframed.cons ⟨nofun, fun _ => hcalled.trans hlines.symm⟩, rfl, hpending, by rw [hkept, hlines]⟩

/-- A refused chunk leaves a sink empty, and its consumer has accepted all lines but the last one. -/
theorem Amid.refused {line : Bytes} (h : Amid k n span chunk bytes before (done ++ [line]) past) (sink : Sink)
    {framer : LineFramer} (hintake : sink.intake = .lines framer) (hpending : framer.pending = #[])
    (hkept : sink.kept.toList = before ++ (lines bytes ++ done)) (start stop count len : Nat) (cause : SinkError)
    {drains : Array (Option Drain)} {source : Source} :
    Standing k sink (⟨n, .refused start stop count len cause, drains, source⟩ :: past) := by
  obtain ⟨⟨ds, hown, -⟩, hframed, rfl, hcalled, rfl⟩ := h
  obtain ⟨htaken', hcalled', hearlier'⟩ :=
    taken_refused hown start stop count len cause drains source
  intro framer' hintake' _
  obtain rfl : framer = framer' := Intake.lines.inj (hintake.symm.trans hintake')
  rw [htaken', hcalled', hearlier', hcalled, hpending]
  refine ⟨hframed.cons ⟨nofun, fun _ => ?_⟩, rfl, rfl, ?_⟩
  · rw [hcalled]
    cases done with
    | nil => exact ⟨line, [], rfl⟩
    | cons first done => exact ⟨first, done ++ [line], rfl⟩
  · rw [hkept, ← List.append_assoc (lines _), List.dropLast_concat, List.append_nil]

theorem feed_limit {σ : Type} (onLine : Bytes → σ → Except SinkError Unit × σ) (framer : LineFramer) (chunk : Bytes)
    (s : σ) : (framer.feed onLine chunk s).2.1.limit = framer.limit := by
  fun_induction LineFramer.feed onLine framer chunk s with
  | case1 framer chunk s hcut outcome framer' heq =>
    have : (framer.hold chunk).2.limit = framer.limit := by
      unfold LineFramer.hold
      dsimp only
      split
      · rfl
      · split <;> rfl
    rw [heq] at this
    exact this
  | case2 framer chunk s line rest hcut framer' s' heq ih =>
    rw [ih, ((LineFramer.emit_eq_iff onLine).mp heq).2]
    rfl
  | case3 framer chunk s line rest hcut cause framer' s' heq =>
    rw [((LineFramer.emit_eq_iff onLine).mp heq).2]
    rfl

/-- A sink stays of its sort. -/
theorem unlimited_of_accept (h : (f.accept player n chunk).2.sink.Unlimited) : f.sink.Unlimited := by
  unfold Frame.accept at h
  split at h
  · next hintake =>
    obtain ⟨framer, hlines, -⟩ := h
    have hsame : (f.offer player chunk).2.sink.intake = f.sink.intake := by
      unfold Frame.offer
      dsimp only
      split <;> rfl
    rw [hsame, hintake] at hlines
    cases hlines
  · next framer hintake =>
    obtain ⟨framer', hlines, hlimit⟩ := h
    refine ⟨framer, hintake, ?_⟩
    rw [← feed_limit (fun line f => Frame.offer player line (f.note n (.line line))) framer chunk f, ← hlimit]
    exact congrArg LineFramer.limit (Intake.lines.inj hlines)

/-- What a sink does with a chunk: afterwards it stands as the history says. -/
theorem Attends.accept (hp : Tends k player) {ds : List Event}
    (h : Attends k n s₀ (fun past => deeds n past = .offered span chunk :: ds ∧ Standing k f.sink past) f.state)
    (hscript : Script.Spares k f.sink.script) :
    ∃ outcome f', f.accept player n chunk = (outcome, f') ∧ Script.Spares k f'.sink.script ∧
      match outcome with
      | .ok () => Attends k n s₀ (Standing k f'.sink) (f'.note n (.accepted span chunk)).state
      | .error cause => ∀ start stop count len,
          Attends k n s₀ (Standing k f'.sink) (f'.note n (.refused start stop count len cause)).state := by
  by_cases hunlimited : f.sink.Unlimited
  · obtain ⟨framer, hintake, hlimit⟩ := hunlimited
    obtain ⟨hds, hstanding⟩ := h.known
    obtain ⟨hframed, hcalled, hpending, hkept⟩ := hstanding framer hintake hlimit
    have hamid : Attends k n s₀ (Amid k n span chunk (taken k f.state.past) (earlier k f.state.past) []) f.state :=
      h.mono fun _ => ⟨⟨ds, h.own, hds⟩, hframed, rfl, by rw [hcalled, List.append_nil], rfl⟩
    have hlines : lines (taken k f.state.past ++ chunk) =
        lines (taken k f.state.past) ++ ([] ++ lines (framer.pending.toList ++ chunk)) := by
      rw [lines_append, hpending, List.nil_append]
    obtain ⟨outcome, f', hall, hscript', hend⟩ := hamid.offerAll hp hscript hlines (by simp [hkept, hcalled])
    have hfeed := framer.feed_eq (fun line f => Frame.offer player line (f.note n (.line line)))
      (hpending ▸ newline_not_mem_unfinished _) chunk f
    rw [hall, hlimit, LineFramer.hold_of_unlimited, hpending, ← unfinished_append] at hfeed
    unfold Frame.accept
    rw [hintake]
    dsimp only
    rw [hfeed]
    cases outcome with
    | ok =>
      refine ⟨.ok (), { f' with sink := { f'.sink with intake := .lines _ } }, rfl, hscript', ?_⟩
      refine hend.1.note _ rfl fun hamid => ?_
      exact hamid.accepted { f'.sink with intake := .lines _ } hlines rfl (by simp) hend.2
    | error cause =>
      obtain ⟨accepted, line, hend, hkept'⟩ := hend
      refine ⟨.error cause, { f' with sink := { f'.sink with intake := .lines _ } }, rfl, hscript', ?_⟩
      refine fun start stop count len => hend.note _ rfl fun hamid => ?_
      exact hamid.refused { f'.sink with intake := .lines _ } rfl rfl hkept' start stop count len cause
  · have hlocal : Local k fun _ => True := fun _ _ _ _ => trivial
    have hf : Aware k (Attends k n s₀ fun _ => True) f := ⟨h.mono fun _ => trivial, hscript⟩
    obtain ⟨hkept, hscript'⟩ := Frame.accept_keeps (n := n)
      (fun item _ hf => (Attends.undisturbed hlocal).offer hp item hf)
      (fun _ _ hf => ⟨hf.1.note _ rfl fun _ => trivial, hf.2⟩) (fun _ _ hf => hf) chunk hf
    have hlimited : ∀ past, Standing k (f.accept player n chunk).2.sink past := fun past framer hintake hlimit =>
      absurd (unlimited_of_accept ⟨framer, hintake, hlimit⟩) hunlimited
    generalize f.accept player n chunk = result at *
    obtain ⟨outcome, f'⟩ := result
    refine ⟨outcome, f', rfl, hscript', ?_⟩
    cases outcome with
    | ok => exact hkept.note _ rfl fun _ => hlimited _
    | error cause => exact fun start stop count len => hkept.note _ rfl fun _ => hlimited _

/-! ## All chunks -/

/-- What a transfer to the sink knows between two chunks. -/
def Holds (k n : Nat) (s₀ : State) (f : Frame) : Prop :=
  Attends k n s₀ (Standing k f.sink) f.state ∧ Script.Spares k f.sink.script

theorem Holds.note (h : Holds k n s₀ f) (hb : event.sink? = none) (hu : event.tells = false) :
    Holds k n s₀ (f.note n event) :=
  ⟨h.1.note _ hb fun hs => hs.of_untold hu hb, h.2⟩

theorem Holds.handOut (hp : Tends k player) (g : Geometry) (report : Transfer) (delivered : Nat) (span : Span)
    (scratch : Scratch) (h : Holds k n s₀ f) :
    Holds k n s₀ ((host player n).handOut g report delivered span scratch f).2.2 := by
  unfold Host.handOut
  have hfetch : (host player n).fetch span.page f = (f.state.source.page span.page, f) := rfl
  have hnote : ∀ event f, (host player n).note event f = f.note n event := fun _ _ => rfl
  have haccept : ∀ bytes f, (host player n).accept bytes f = f.accept player n bytes := fun _ _ => rfl
  simp only [hfetch, hnote, haccept]
  cases f.state.source.page span.page with
  | error fault => exact h
  | ok page =>
    dsimp only
    split
    · cases span.copyFrom page scratch with
      | error fault => exact h
      | ok copied =>
        obtain ⟨bytes, scratch'⟩ := copied
        have hoffered : Attends k n s₀ (fun past => deeds n past = .offered span bytes :: deeds n f.state.past ∧
            Standing k (f.note n (.offered span bytes)).sink past) (f.note n (.offered span bytes)).state :=
          h.1.note _ rfl fun hs => ⟨deeds_self rfl, hs.of_untold rfl rfl⟩
        obtain ⟨outcome, f', heq, hscript, hend⟩ := hoffered.accept hp h.2
        dsimp only
        rw [heq]
        cases outcome with
        | ok => exact ⟨hend, hscript⟩
        | error cause => exact ⟨hend _ _ _ _, hscript⟩
    · exact h

/-- A transfer to the sink keeps what it knows. -/
theorem Holds.keeps (hp : Tends k player) : (host player n).Keeps (Holds k n s₀) where
  position f hf :=
    (Attends.undisturbed (local_standing k f.sink)).readPosition hp
      (fun _ hs => hs.note _ rfl fun hstanding => hstanding.of_untold rfl rfl) hf
  handOut plan report delivered scratch _ hf := hf.handOut hp plan.geometry report delivered plan.head scratch
  note _ _ ha hf := hf.note (Event.of_aloof ha).1 (Event.of_aloof ha).2

end PagedRing.Session
