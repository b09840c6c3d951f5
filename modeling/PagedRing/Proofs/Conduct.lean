import PagedRing.Proofs.Underway

/-!
# What deliveries do

Each part of a delivery, from the state that it needs to the state that it leaves. Callbacks may interrupt it wherever
a chunk is handed over or the write position is read; what a running transfer knows is steady, so it still holds after
them.

* `Bystander.deliver`: a range that is delivered without a drain.
* `Running.readPosition`: a read of the write position.
* `Delivering`: what a transfer knows between two chunks, and `Delivering.handOut`, one chunk.
* `Running.deliver`: a range is handed out chunk by chunk, unless the source or the sink gives a cause to end early.
-/

namespace PagedRing.Session

variable {origin : Source} {player : Player} {s₀ : State} {n d : Nat} {drain : Drain} {ds : List Event} {f : Frame}

/-! ## Bystanders -/

/-- Chunks are the work of a bystander as well. -/
theorem Bystander.hands (hp : Sound origin player) :
    (host player n).Hands fun f => Bystander origin s₀ n f.state where
  handOut := Host.handOut_keeps (fun _ _ hf => hf) (fun bytes _ hf => steady.accept hp bytes hf)
    (fun _ _ _ hf _ => hf.note rfl rfl) (fun _ _ _ hf => hf.note rfl rfl) (fun _ _ _ _ _ _ hf => hf.note rfl rfl)
  planned _ _ hf := hf.note rfl rfl
  delivered _ _ hf := hf.note rfl rfl

/-- A delivery without a drain is the work of a bystander. -/
theorem Bystander.deliver (hp : Sound origin player) (h : Bystander origin s₀ n f.state) (g : Geometry)
    (start len : Nat) (scratch : Scratch) :
    Bystander origin s₀ n ((host player n).deliver g start len scratch f).2.2.state :=
  (hands hp).deliver g start len scratch h

namespace Running

/-! ## Reads of the write position -/

/-- What a transfer knows after a read of the write position. -/
structure Sampled (origin : Source) (s₀ : State) (n d : Nat) (drain : Drain) (ds : List Event) (position : Nat)
    (f : Frame) : Prop where
  running : ∃ es, (es = ds ∨ ∃ cues, es = .prompted cues :: ds) ∧
    Running origin s₀ n d drain (.sampled position :: es) f.state
  latest : Latest n (.sampled position) f.state.past

/-- A read of the write position plays its cues and then tells where the source stands. -/
theorem readPosition (hp : Sound origin player) {ev : Event} (h : Running origin s₀ n d drain (ev :: ds) f.state)
    (hev : ev.looks = true) (g : Geometry) :
    ∃ position, Sampled origin s₀ n d drain (ev :: ds) position ((host player n).readPosition g f).2 ∧
      ((host player n).readPosition g f).1 =
        if g.contains position then .ok position else .error (.error (.positionOutOfRange position g.capacity)) := by
  have hread : ∃ es, (es = ev :: ds ∨ ∃ cues, es = .prompted cues :: ev :: ds) ∧
      Running origin s₀ n d drain es (f.readPosition player n).2.state := by
    unfold Frame.readPosition
    dsimp only
    have hs : Running origin s₀ n d drain (ev :: ds)
        { f.state with script := f.state.script.later f.state.reads, reads := f.state.reads + 1 } :=
      steady.same h rfl rfl rfl rfl
    split
    · exact ⟨ev :: ds, Or.inl rfl, steady.playCues hp _ hs⟩
    · next hdue =>
      refine ⟨_, Or.inr ⟨_, rfl⟩, steady.playCues hp _ (hs.note rfl ?_ trivial)⟩
      exact .prompted _ h.course hev
  obtain ⟨es, hes, hrun⟩ := hread
  refine ⟨(f.readPosition player n).1, ⟨⟨es, hes, hrun.note rfl ?_ rfl⟩, ?_⟩, rfl⟩
  · rcases hes with rfl | ⟨cues, rfl⟩
    · exact .sampled _ hrun.course (Or.inl hev)
    · exact .sampled _ hrun.course (Or.inr ⟨cues, rfl⟩)
  · show Latest n _ (State.past (State.note _ n _))
    rw [State.past_note]
    exact .cons

/-! ## Deliveries -/

/-- What a transfer knows when it is about to end. -/
def Ends (origin : Source) (s₀ : State) (n d : Nat) (drain : Drain) (outcome : Except Halt Transfer) (f : Frame) :
    Prop :=
  (∃ ds, Running origin s₀ n d drain ds f.state) ∧
    Concludes n d drain f.state.past f.state.source outcome

end Running

/-- What a transfer knows between two chunks of a range that ends at `stop`. -/
structure Delivering (origin : Source) (s₀ : State) (n d : Nat) (drain : Drain) (plan : Plan) (stop : Nat)
    (ds : List Event) (f : Frame) : Prop where
  running : Running origin s₀ n d drain ds f.state
  handing : Handing ds
  planned : planned? ds = some plan
  geometry : plan.geometry = drain.geometry
  stop : plan.geometry.advance plan.start plan.len = .ok stop

namespace Delivering

variable {plan : Plan} {stop : Nat}

/-- What is left of a range after the chunks that were accepted. -/
def rest (plan : Plan) (ds : List Event) : Plan := { plan with planned := size (chunksAccepted ds) }

/-- The report of a range, less the chunks that are still to come. -/
def report (plan : Plan) (stop : Nat) (ds : List Event) : Transfer :=
  ⟨plan.start, stop, plan.len, (chunksAccepted ds).length⟩

theorem left (h : Delivering origin s₀ n d drain plan stop ds f) : left? ds = some (rest plan ds) := by
  rw [h.running.course.left_of_planned h.planned, rest, h.running.course.accepted_of_handing h.handing]

theorem fits (h : Delivering origin s₀ n d drain plan stop ds f) : (rest plan ds).Fits := by
  have := h.running.course.fits_of_planned h.planned
  rw [rest, h.running.course.accepted_of_handing h.handing]
  exact this

theorem length_lt (h : Delivering origin s₀ n d drain plan stop ds f) :
    (chunksAccepted ds).length ≤ size (chunksAccepted ds) ∧ size (chunksAccepted ds) < wordBound := by
  have hlen := h.running.course.length_le_size
  rw [← h.running.course.accepted_of_handing h.handing] at hlen
  have hle : size (chunksAccepted ds) ≤ plan.len := h.fits.planned_le
  have hcap : plan.len ≤ plan.geometry.capacity := h.fits.len_le
  exact ⟨hlen, Nat.lt_of_le_of_lt (Nat.le_trans hle hcap) plan.geometry.capacity_lt⟩

/-- One chunk: it is accepted, or the transfer ends. -/
theorem handOut (hp : Sound origin player) (h : Delivering origin s₀ n d drain plan stop ds f)
    (hlt : size (chunksAccepted ds) < plan.len) (scratch : Scratch) :
    (∃ scratch' f' ds', (host player n).handOut plan.geometry (report plan stop ds) (size (chunksAccepted ds))
        (rest plan ds).head scratch f = (.ok (), scratch', f') ∧ Delivering origin s₀ n d drain plan stop ds' f' ∧
      rest plan ds' = (rest plan ds).skip ∧ (chunksAccepted ds').length = (chunksAccepted ds).length + 1) ∨
    ∃ halt scratch' f', (host player n).handOut plan.geometry (report plan stop ds) (size (chunksAccepted ds))
        (rest plan ds).head scratch f = (.error halt, scratch', f') ∧
      Running.Ends origin s₀ n d drain (.error halt) f' := by
  have hrun := h.running
  have hleft := h.left
  have hg := h.geometry
  unfold Host.handOut
  have hfetch : (host player n).fetch (rest plan ds).head.page f =
      (f.state.source.page (rest plan ds).head.page, f) := rfl
  rw [hfetch]
  cases hpage : f.state.source.page (rest plan ds).head.page with
  | error fault =>
    refine Or.inr ⟨_, _, _, rfl, ⟨ds, hrun⟩, .inl ⟨rest plan ds, ?_⟩⟩
    rw [hrun.deeds]
    exact ⟨h.handing, hleft, hlt, hpage⟩
  | ok page =>
    dsimp only
    by_cases hlen : page.length = plan.geometry.pageSize
    · rw [if_pos hlen]
      obtain ⟨scratch', hcopy⟩ := Plan.copyFrom_head (rest plan ds) hlen scratch
      simp only [hcopy]
      generalize hbytes : (page.drop (rest plan ds).head.offsetInPage).take (rest plan ds).head.len = bytes
      have hoffered : Running origin s₀ n d drain (.offered (rest plan ds).head bytes :: ds)
          (f.note n (.offered (rest plan ds).head bytes)).state :=
        hrun.note rfl (.offered bytes hrun.course h.handing hleft hlt) ⟨page, hpage, hg ▸ hlen, hbytes.symm⟩
      have haccept := Running.steady.accept hp bytes hoffered
      have hnote : ∀ event f, (host player n).note event f = f.note n event := fun _ _ => rfl
      have hacc : ∀ f, (host player n).accept bytes f = f.accept player n bytes := fun _ => rfl
      simp only [hnote, hacc]
      cases hres : (f.note n (.offered (rest plan ds).head bytes)).accept player n bytes with
      | mk result f' =>
        rw [hres] at haccept
        cases result with
        | ok =>
          refine Or.inl ⟨scratch', _, .accepted _ bytes :: .offered _ bytes :: ds, rfl,
            ⟨haccept.note rfl (.accepted haccept.course) trivial, Or.inr ⟨_, _, _, rfl⟩, h.planned, hg, h.stop⟩, ?_, ?_⟩
          · simp only [rest, chunksAccepted, size, List.map_append, List.map_cons, List.map_nil, List.sum_append,
              List.sum_cons, List.sum_nil, Plan.skip, Plan.head, Nat.add_zero]
          · simp only [chunksAccepted, List.length_append, List.length_cons, List.length_nil]
        | error cause =>
          refine Or.inr ⟨_, _, _, rfl,
            ⟨_, haccept.note rfl (.refused cause haccept.course h.planned h.stop) trivial⟩, plan.len, ?_⟩
          show Latest n _ (State.past (State.note _ n _))
          rw [State.past_note]
          exact .cons
    · rw [if_neg hlen]
      refine Or.inr ⟨_, _, _, rfl, ⟨ds, hrun⟩, rest plan ds, page, ?_⟩
      rw [hrun.deeds]
      exact ⟨h.handing, hleft, hlt, rfl, hpage, by rw [hg], rfl, hlen, rfl⟩

/-- A chunk that is accepted counts. -/
theorem of_handOut_ok (hp : Sound origin player) (h : Delivering origin s₀ n d drain plan stop ds f) {span : Span}
    {rest' : Plan} (hnext : (rest plan ds).next = .ok (some (span, rest'))) {scratch scratch' : Scratch} {f' : Frame}
    (heq : (host player n).handOut plan.geometry (report plan stop ds) (size (chunksAccepted ds)) span scratch f =
      (.ok (), scratch', f')) :
    ∃ ds', Delivering origin s₀ n d drain plan stop ds' f' ∧ rest' = rest plan ds' ∧
      Word.add (size (chunksAccepted ds)) span.len = .ok (size (chunksAccepted ds')) ∧
      Word.add (chunksAccepted ds).length 1 = .ok (chunksAccepted ds').length := by
  obtain ⟨hlt, rfl, rfl⟩ := (Plan.next_eq_some_iff h.fits).mp hnext
  rcases h.handOut hp hlt scratch with ⟨_, _, ds', hres, hnew, hskip, hlength⟩ | ⟨_, _, _, hres, -⟩
  · rw [heq] at hres
    cases hres
    have hsize : size (chunksAccepted ds') = size (chunksAccepted ds) + (rest plan ds).head.len :=
      congrArg Plan.planned hskip
    obtain ⟨hle, hw⟩ := hnew.length_lt
    refine ⟨ds', hnew, hskip.symm, ?_, ?_⟩
    · rw [Word.add_of_lt (hsize ▸ hw), hsize]
    · rw [Word.add_of_lt (by omega), hlength]
  · rw [heq] at hres
    cases hres

/-- A chunk that is not accepted ends the transfer. -/
theorem of_handOut_error (hp : Sound origin player) (h : Delivering origin s₀ n d drain plan stop ds f) {span : Span}
    {rest' : Plan} (hnext : (rest plan ds).next = .ok (some (span, rest'))) {scratch scratch' : Scratch} {f' : Frame}
    {halt : Halt} (heq : (host player n).handOut plan.geometry (report plan stop ds) (size (chunksAccepted ds)) span
      scratch f = (.error halt, scratch', f')) : Running.Ends origin s₀ n d drain (.error halt) f' := by
  obtain ⟨hlt, rfl, rfl⟩ := (Plan.next_eq_some_iff h.fits).mp hnext
  rcases h.handOut hp hlt scratch with ⟨_, _, _, hres, -⟩ | ⟨_, _, _, hres, hends⟩
  · rw [heq] at hres
    cases hres
  · rw [heq] at hres
    cases hres
    exact hends

/-- The chunks that are still to come are handed out one after the other. -/
theorem deliverRest (hp : Sound origin player) {left : Plan} {done : Transfer} {delivered : Nat} (scratch : Scratch)
    (h : Delivering origin s₀ n d drain plan stop ds f) (hleft : left = rest plan ds)
    (hdone : done = report plan stop ds) (hdelivered : delivered = size (chunksAccepted ds)) :
    Running.Ends origin s₀ n d drain ((host player n).deliverRest left done delivered scratch f).1
        ((host player n).deliverRest left done delivered scratch f).2.2 ∧
      ∀ report, ((host player n).deliverRest left done delivered scratch f).1 = .ok report → report.stop = stop := by
  fun_induction Host.deliverRest (host player n) left done delivered scratch f generalizing ds with
  | case1 left done delivered scratch f fault hnext =>
    rw [hleft, Plan.next_of_fits h.fits] at hnext
    cases hnext
  | case2 left done delivered scratch f hnext =>
    subst hleft hdone
    have hend := (Plan.next_eq_none_iff h.fits).mp hnext
    refine ⟨⟨⟨_, h.running.note rfl (.delivered h.running.course h.handing h.planned h.left hend h.stop) trivial⟩,
      Or.inr ?_⟩, ?_⟩
    · show Latest n _ (State.past (State.note _ n _))
      rw [State.past_note]
      exact .cons
    · rintro report ⟨⟩
      rfl
  | case3 left done delivered scratch f span rest' hnext halt scratch' f' heq =>
    subst hleft hdone hdelivered
    refine ⟨h.of_handOut_error hp hnext heq, ?_⟩
    rintro report ⟨⟩
  | case4 left done delivered scratch f span rest' hnext scratch' f' heq delivered' chunks' hchunks hadd ih =>
    subst hleft hdone hdelivered
    obtain ⟨ds', hnew, hrest, hsize, hlength⟩ := h.of_handOut_ok hp hnext heq
    cases hadd.symm.trans hsize
    cases hchunks.symm.trans hlength
    exact ih hnew hrest rfl rfl
  | case5 left done delivered scratch f span rest' hnext scratch' f' heq fault hadd =>
    subst hleft hdone hdelivered
    obtain ⟨ds', -, -, hsize, -⟩ := h.of_handOut_ok hp hnext heq
    cases hadd.symm.trans hsize
  | case6 left done delivered scratch f span rest' hnext scratch' f' heq fault hchunks =>
    subst hleft hdone hdelivered
    obtain ⟨ds', -, -, -, hlength⟩ := h.of_handOut_ok hp hnext heq
    cases hchunks.symm.trans hlength

end Delivering

/-- A range that a transfer found is handed out, from where it was found to the write position that was read. -/
theorem Running.deliver (hp : Sound origin player) {ev : Event} (h : Running origin s₀ n d drain (ev :: ds) f.state)
    (hev : ev.finds = true) {start position len : Nat} (hstart : start < drain.geometry.capacity)
    (hposition : position < drain.geometry.capacity) (hlen : drain.geometry.unreadLen start position = .ok len)
    (ht : Truthful d drain f.state.past
      ⟨n, .planned ⟨drain.geometry, start, len, 0⟩, f.state.drains, f.state.source⟩) (scratch : Scratch) :
    Ends origin s₀ n d drain ((host player n).deliver drain.geometry start len scratch f).1
        ((host player n).deliver drain.geometry start len scratch f).2.2 ∧
      ∀ report, ((host player n).deliver drain.geometry start len scratch f).1 = .ok report →
        report.stop = position := by
  obtain ⟨hadv, hlt⟩ := drain.geometry.advance_unreadLen hstart hposition hlen
  have hcontains : drain.geometry.contains start = true := drain.geometry.contains_iff.mpr hstart
  have hplan : Plan.ofRange drain.geometry start len = .ok ⟨drain.geometry, start, len, 0⟩ := by
    rw [Plan.ofRange, hcontains, if_neg (by decide), if_neg (by omega)]
  have hrun := h.note rfl (.planned h.course hev ⟨hstart, Nat.le_of_lt hlt, Nat.zero_le _⟩ rfl) ht
  have hdeliver : (host player n).deliver drain.geometry start len scratch f =
      (host player n).deliverRest ⟨drain.geometry, start, len, 0⟩ ⟨start, position, len, 0⟩ 0 scratch
        (f.note n (.planned ⟨drain.geometry, start, len, 0⟩)) := by
    rw [Host.deliver, hcontains, if_neg (by decide), if_neg (by omega), hadv, hplan]
    rfl
  have hnone : chunksAccepted (.planned ⟨drain.geometry, start, len, 0⟩ :: ev :: ds) = [] := by
    have := (h.course.of_finds hev).2.2.2
    cases ev <;> first | exact this | cases hev
  rw [hdeliver]
  refine Delivering.deliverRest hp scratch ⟨hrun, Or.inl ⟨_, _, rfl⟩, rfl, rfl, hadv⟩ ?_ ?_ ?_
  · rw [Delivering.rest, hnone]; rfl
  · rw [Delivering.report, hnone]; rfl
  · rw [hnone]; rfl

end PagedRing.Session
