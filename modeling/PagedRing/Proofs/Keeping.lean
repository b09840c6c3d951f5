import PagedRing.Proofs.Tiling
import PagedRing.Session.Play

/-!
# What deliveries and transfers keep

A property of the surroundings that reads of the write position and chunks keep, and the notes in between, is kept by
every delivery and every transfer.

* `Host.handOut_keeps`: one chunk, from its parts.
* `Host.Hands.deliver`: a delivery.
* `Host.Hands.sequential`, `Host.Hands.concurrent`: transfers of both sorts of drains, from where they have found their
  range.
* `Host.Keeps.sequential`, `Host.Keeps.concurrent`: whole transfers.
* `Session.Frame.accept_keeps`: what a sink does with a chunk, from what it does with one item.
* `Session.playCues_keeps`: what a callback keeps, from what the steps of its cues keep.
* `Session.leftover_keeps`: what a transfer of a session keeps.
* `Session.playAll_keeps`: what steps keep one after the other.
-/

namespace PagedRing

/-- Whether an event of a transfer is none of its sink's. -/
def Event.aloof : Event → Bool
  | .loaded _ | .prompted _ | .sampled _ | .claimed _ _ _ | .lost _ _ _ | .planned _ | .delivered _ => true
  | _ => false

namespace Host

variable {σ : Type} {host : Host σ} {P : σ → Prop}

/-- A property is kept by a chunk of a plan if its parts keep it: the chunk that is offered is cut from the page that
was fetched just before. -/
theorem handOut_keeps (hfetch : ∀ number s, P s → P (host.fetch number s).2)
    (haccept : ∀ bytes s, P s → P (host.accept bytes s).2)
    (hoffered : ∀ (span : Span) page s, P s → (host.fetch span.page s).1 = .ok page →
      P (host.note (.offered span (span.cut page)) (host.fetch span.page s).2))
    (haccepted : ∀ span bytes s, P s → P (host.note (.accepted span bytes) s))
    (hrefused : ∀ start stop taken len cause s, P s → P (host.note (.refused start stop taken len cause) s)) :
    ∀ (plan : Plan) done delivered scratch s, P s →
      P (host.handOut plan.geometry done delivered plan.head scratch s).2.2 := by
  intro plan done delivered scratch s hs
  have hpage := hfetch plan.head.page s hs
  have hchunk := hoffered plan.head
  unfold Host.handOut
  rcases heq : host.fetch plan.head.page s with ⟨fault | page, s'⟩
  · rw [heq] at hpage
    exact hpage
  · rw [heq] at hpage
    dsimp only
    split
    · next hlength =>
      have hoffer := haccept (plan.head.cut page) _ (hchunk page s hs (congrArg Prod.fst heq))
      rw [heq] at hoffer
      rw [plan.copyFrom_eq hlength]
      dsimp only
      generalize host.accept (plan.head.cut page) (host.note (.offered plan.head (plan.head.cut page)) s') =
        accepted at hoffer ⊢
      obtain ⟨answer, s''⟩ := accepted
      cases answer with
      | ok => exact haccepted _ _ _ hoffer
      | error cause => exact hrefused _ _ _ _ _ _ hoffer
    · exact hpage

/-- Whether a property is kept by chunks of plans, and by what a delivery notes before and after them. -/
structure Hands (host : Host σ) (P : σ → Prop) : Prop where
  handOut : ∀ (plan : Plan) done delivered scratch s, P s →
    P (host.handOut plan.geometry done delivered plan.head scratch s).2.2
  planned : ∀ plan s, P s → P (host.note (.planned plan) s)
  delivered : ∀ report s, P s → P (host.note (.delivered report) s)

namespace Hands

variable (h : host.Hands P) {s : σ}

include h

theorem deliverRest {plan : Plan} (hfits : plan.Fits) (done : Transfer) (delivered : Nat) (scratch : Scratch)
    (hs : P s) : P (host.deliverRest plan done delivered scratch s).2.2 := by
  induction hfits using Plan.Fits.induction generalizing done delivered scratch s with
  | stop plan hfits hend =>
    rw [host.deliverRest_of_none _ _ _ _ ((Plan.next_eq_none_iff hfits).mpr hend)]
    exact h.delivered done s hs
  | span plan hfits hlt ih =>
    have hafter := h.handOut plan done delivered scratch s hs
    rw [host.deliverRest_of_some _ _ _ _ ((Plan.next_eq_some_iff hfits).mpr ⟨hlt, rfl, rfl⟩)]
    generalize host.handOut plan.geometry done delivered plan.head scratch s = handed at hafter ⊢
    obtain ⟨outcome, kept, s⟩ := handed
    cases outcome with
    | error halt => exact hafter
    | ok =>
      dsimp only
      split
      · exact ih _ _ kept hafter
      · exact hafter
      · exact hafter

/-- A delivery keeps what its chunks keep. -/
theorem deliver (g : Geometry) (start len : Nat) (scratch : Scratch) (hs : P s) :
    P (host.deliver g start len scratch s).2.2 := by
  by_cases hstart : start < g.capacity
  · by_cases hlen : len ≤ g.capacity
    · obtain ⟨hplan, hfits⟩ := Plan.fits_of_range hstart hlen
      rw [Host.deliver, g.contains_iff.mpr hstart, if_neg (by decide), if_neg (Nat.not_lt.mpr hlen),
        g.advance_of_le (Nat.le_of_lt hstart), hplan]
      exact h.deliverRest hfits _ _ scratch (h.planned _ s hs)
    · rw [Host.deliver, g.contains_iff.mpr hstart, if_neg (by decide), if_pos (Nat.lt_of_not_le hlen)]
      exact hs
  · have hcontains : g.contains start = false := decide_eq_false hstart
    rw [Host.deliver, hcontains, if_pos (by decide)]
    exact hs

/-- A transfer of a drain that is not shared keeps what its chunks keep, once its read of the write position has kept
it. -/
theorem sequential (g : Geometry) (cursor : Nat) (scratch : Scratch) (hread : P (host.readPosition g s).2) :
    P (Sequential.transfer host g cursor scratch s).2.2.2 := by
  unfold Sequential.transfer
  split
  · next heq => rw [heq] at hread; exact hread
  · next position s' heq =>
    rw [heq] at hread
    split
    · split
      · exact hread
      · next len hlen =>
        have hdeliver := h.deliver g cursor len scratch hread
        split
        · next heq => rw [heq] at hdeliver; exact hdeliver
        · next heq => rw [heq] at hdeliver; exact hdeliver
    · exact hread

/-- A transfer of a shared drain keeps what its chunks keep, once its attempts to claim have kept it. -/
theorem concurrent (cell : Concurrent.Cell σ) (g : Geometry) (attempts : Nat) (scratch : Scratch)
    (hclaim : P (Concurrent.claim host cell g attempts 0 s).2) :
    P (Concurrent.transfer host cell g attempts scratch s).2.2 := by
  unfold Concurrent.transfer
  split
  · next heq => rw [heq] at hclaim; exact hclaim
  · next heq => rw [heq] at hclaim; exact hclaim
  · next start stop s' heq =>
    rw [heq] at hclaim
    split
    · exact hclaim
    · exact h.deliver g start _ scratch hclaim

end Hands

/-- Whether a property is kept by reads of the write position and by what a transfer notes as well. -/
structure Keeps (host : Host σ) (P : σ → Prop) : Prop extends Hands host P where
  position : ∀ s, P s → P (host.position s).2
  note : ∀ event s, event.aloof = true → P s → P (host.note event s)
  planned := fun _ s => note _ s rfl
  delivered := fun _ s => note _ s rfl

namespace Keeps

variable (h : host.Keeps P) {s : σ}

include h

theorem readPosition (g : Geometry) (hs : P s) : P (host.readPosition g s).2 :=
  h.note _ _ rfl (h.position s hs)

/-- A transfer of a drain that is not shared keeps what its read of the write position and its chunks keep. -/
theorem sequential (g : Geometry) (cursor : Nat) (scratch : Scratch) (hs : P s) :
    P (Sequential.transfer host g cursor scratch s).2.2.2 :=
  h.toHands.sequential g cursor scratch (h.readPosition g hs)

variable (cell : Concurrent.Cell σ)

theorem claim (hstore : ∀ position s, P s → P (cell.store position s)) (g : Geometry) (attempts retries : Nat)
    (hs : P s) : P (Concurrent.claim host cell g attempts retries s).2 := by
  induction attempts generalizing retries s with
  | zero => exact hs
  | succ attempts ih =>
    have hread := h.readPosition g (h.note (.loaded (cell.load s)) s rfl hs)
    unfold Concurrent.claim
    dsimp only
    split
    · next heq => rw [heq] at hread; exact hread
    · next position s' heq =>
      rw [heq] at hread
      split
      · split
        · exact h.note _ _ rfl (hstore position s' hread)
        · split
          · exact hread
          · exact ih _ (h.note _ _ rfl hread)
      · exact hread

/-- A transfer of a shared drain keeps what its reads of the write position and its chunks keep, if moves of the cursor
keep it as well. -/
theorem concurrent (hstore : ∀ position s, P s → P (cell.store position s)) (g : Geometry) (attempts : Nat)
    (scratch : Scratch) (hs : P s) : P (Concurrent.transfer host cell g attempts scratch s).2.2 :=
  h.toHands.concurrent cell g attempts scratch (h.claim cell hstore g attempts 0 hs)

end Keeps

end Host

/-! ## Callbacks -/

namespace Session

/-- A callback keeps what the steps of its cues keep. -/
theorem playCues_keeps {player : Player} {P : State → Prop} {script : Script}
    (h : ∀ call step passOn, .play call step passOn ∈ script → ∀ s, P s → P (player step s).2)
    (answers : Array Answer) {s : State} (hs : P s) : P (playCues player script answers s).2.2 := by
  induction script generalizing answers s with
  | nil => exact hs
  | cons cue script ih =>
    cases cue with
    | fail call cause => exact hs
    | play call step passOn =>
      have hnext := h call step passOn List.mem_cons_self s hs
      have hrest : ∀ call step passOn, .play call step passOn ∈ script → ∀ s, P s → P (player step s).2 := by
        intro call step passOn hmem
        exact h call step passOn (List.mem_cons_of_mem _ hmem)
      unfold playCues
      dsimp only
      split
      · exact hnext
      · exact ih hrest _ hnext

/-- An offer does to the rest of the session what its cues do. -/
theorem Frame.state_offer (player : Player) (item : Bytes) (f : Frame) :
    (f.offer player item).2.state =
      (playCues player (f.sink.script.due f.sink.calls) f.answers f.state).2.2 := by
  unfold Frame.offer
  dsimp only
  split <;> · next heq => rw [heq]

end Session

/-! ## Sinks -/

/-- A chunk keeps what each of its lines keeps. -/
theorem LineFramer.feed_keeps {σ : Type} {P : σ → Prop} {onLine : Bytes → σ → Except SinkError Unit × σ}
    (h : ∀ line s, P s → P (onLine line s).2) (framer : LineFramer) (chunk : Bytes) {s : σ} (hs : P s) :
    P (framer.feed onLine chunk s).2.2 := by
  fun_induction LineFramer.feed onLine framer chunk s with
  | case1 framer chunk s hcut outcome framer' heq => exact hs
  | case2 framer chunk s line rest hcut framer' s' heq ih =>
    have := h (framer.pending.toList ++ line) s hs
    rw [((LineFramer.emit_eq_iff onLine).mp heq).1] at this
    exact ih this
  | case3 framer chunk s line rest hcut cause framer' s' heq =>
    have := h (framer.pending.toList ++ line) s hs
    rw [((LineFramer.emit_eq_iff onLine).mp heq).1] at this
    exact this

namespace Session

/-- A sink keeps what it keeps with each item that it is offered. -/
theorem Frame.accept_keeps {player : Player} {n : Nat} {P : Frame → Prop}
    (hoffer : ∀ item f, P f → P (f.offer player item).2) (hline : ∀ bytes f, P f → P (f.note n (.line bytes)))
    (hintake : ∀ intake f, P f → P { f with sink := { f.sink with intake } }) (bytes : Bytes) {f : Frame} (hf : P f) :
    P (f.accept player n bytes).2 := by
  unfold Frame.accept
  split
  · exact hoffer bytes f hf
  · exact hintake _ _ (LineFramer.feed_keeps (fun line f hf => hoffer line _ (hline line f hf)) _ bytes hf)

/-- A transfer keeps what its chunks keep and what it keeps until it has found its range, if it does not matter where
the drains stand. -/
theorem leftover_keeps_of_found {player : Player} {n d : Nat} {P : Frame → Prop} (hh : (host player n).Hands P)
    (hread : ∀ g f, P f → P ((host player n).readPosition g f).2)
    (hclaim : ∀ g attempts f, P f → P (Concurrent.claim (host player n) (cursorCell d) g attempts 0 f).2)
    (hdrains : ∀ drains f, P f → P { f with state := { f.state with drains } }) (budget : Nat) (drain : Drain)
    (scratch : Scratch) {f : Frame} (hf : P f) :
    P (match drain.mode with
      | .sequential own => transferSequential player n d drain own scratch f
      | .concurrent => transferConcurrent player budget n d drain scratch f).frame := by
  split
  · exact hdrains _ _ (hh.sequential _ _ _ (hread _ _ (hdrains _ _ hf)))
  · exact hh.concurrent (cursorCell d) _ _ _ (hclaim _ _ _ hf)

/-- A transfer keeps what its surroundings keep, if it does not matter where the drains stand. -/
theorem leftover_keeps {player : Player} {n : Nat} {P : Frame → Prop} (hk : (host player n).Keeps P)
    (hdrains : ∀ drains f, P f → P { f with state := { f.state with drains } }) (budget d : Nat) (drain : Drain)
    (scratch : Scratch) {f : Frame} (hf : P f) :
    P (match drain.mode with
      | .sequential own => transferSequential player n d drain own scratch f
      | .concurrent => transferConcurrent player budget n d drain scratch f).frame := by
  apply leftover_keeps_of_found hk.toHands (fun g _ hf => hk.readPosition g hf) _ hdrains budget drain scratch hf
  intro g attempts f hf
  exact hk.claim (cursorCell d) (fun _ f hf => hdrains _ f hf) g attempts 0 hf

/-! ## Steps -/

/-- Steps that are played one after the other keep what each of them keeps. -/
theorem playAll_keeps {P : State → Prop} {budget : Nat} {steps : List Step}
    (h : ∀ step ∈ steps, ∀ s, P s → P (play budget step s).2) {s : State} (hs : P s) :
    P (playAll budget steps s).2 := by
  induction steps generalizing s with
  | nil => exact hs
  | cons step rest ih =>
    apply ih
    · intro step hmem
      exact h step (List.mem_cons_of_mem _ hmem)
    · exact h step List.mem_cons_self s hs

end Session

end PagedRing
