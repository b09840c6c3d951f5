import PagedRing.Drain.Concurrent
import PagedRing.Drain.Sequential
import PagedRing.Lines

/-!
# Deliveries side by side

Two deliveries that are given different scratches, each in surroundings of its own. As long as the surroundings answer
alike, both do the same and come to the same outcome: nothing of what a scratch held before ever leaves it.

* `Span.copyFrom_scratch`: the bytes of a span do not come from the scratch.
* `Host.Alike`: surroundings that answer alike, and keep their states related.
* `Host.Alike.deliver`, `Host.Alike.sequential`, `Host.Alike.concurrent`: deliveries and transfers in such surroundings.
* `LineFramer.feed_alike`: chunks that are cut into lines.
-/

namespace PagedRing

/-- The bytes of a span do not come from what the scratch held before. -/
theorem Span.copyFrom_scratch (span : Span) (page : Bytes) (scratch scratch' : Scratch) :
    (span.copyFrom page scratch').map Prod.fst = (span.copyFrom page scratch).map Prod.fst := by
  unfold Span.copyFrom
  split
  · simp only [Except.map, Scratch.bytes_load]
  · cases span.range with
    | error fault => rfl
    | ok bounds =>
      simp only [bind, Except.bind]
      split <;> rfl

namespace Host

variable {σ τ : Type}

/-- Surroundings that answer alike as long as their states are related, and that keep them related. -/
structure Alike (host : Host σ) (host' : Host τ) (R : σ → τ → Prop) : Prop where
  position : ∀ {s t}, R s t → (host'.position t).1 = (host.position s).1 ∧ R (host.position s).2 (host'.position t).2
  fetch : ∀ {s t} (number : Nat), R s t →
    (host'.fetch number t).1 = (host.fetch number s).1 ∧ R (host.fetch number s).2 (host'.fetch number t).2
  accept : ∀ {s t} (bytes : Bytes), R s t →
    (host'.accept bytes t).1 = (host.accept bytes s).1 ∧ R (host.accept bytes s).2 (host'.accept bytes t).2
  /-- The end of a transfer is not noted by deliveries. -/
  note : ∀ {s t} (event : Event), (∀ outcome, event ≠ .ended outcome) → R s t →
    R (host.note event s) (host'.note event t)

/-- Surroundings answer like themselves. -/
theorem Alike.refl (host : Host σ) : host.Alike host Eq where
  position h := h ▸ ⟨rfl, rfl⟩
  fetch _ h := h ▸ ⟨rfl, rfl⟩
  accept _ h := h ▸ ⟨rfl, rfl⟩
  note _ _ h := h ▸ rfl

namespace Alike

variable {host : Host σ} {host' : Host τ} {R : σ → τ → Prop} {s : σ} {t : τ}

/-! ## Deliveries -/

theorem handOut (h : host.Alike host' R) (g : Geometry) (done : Transfer) (delivered : Nat) (span : Span)
    (scratch scratch' : Scratch) (hs : R s t) :
    (host'.handOut g done delivered span scratch' t).1 = (host.handOut g done delivered span scratch s).1 ∧
      R (host.handOut g done delivered span scratch s).2.2 (host'.handOut g done delivered span scratch' t).2.2 ∧
      (scratch' = scratch → (host'.handOut g done delivered span scratch' t).2.1 =
        (host.handOut g done delivered span scratch s).2.1) := by
  obtain ⟨hpage, hfetched⟩ := h.fetch span.page hs
  unfold Host.handOut
  generalize host.fetch span.page s = fetched at hpage hfetched ⊢
  generalize host'.fetch span.page t = fetched' at hpage hfetched ⊢
  obtain ⟨answer, s⟩ := fetched
  obtain ⟨answer', t⟩ := fetched'
  obtain rfl : answer' = answer := hpage
  cases answer' with
  | error fault => exact ⟨rfl, hfetched, id⟩
  | ok page =>
    dsimp only
    split
    · have hcopy := span.copyFrom_scratch page scratch scratch'
      have hsame : scratch' = scratch → span.copyFrom page scratch' = span.copyFrom page scratch :=
        congrArg (span.copyFrom page)
      generalize span.copyFrom page scratch = copied at hcopy hsame ⊢
      generalize span.copyFrom page scratch' = copied' at hcopy hsame ⊢
      match copied, copied' with
      | .error fault, .error fault' =>
        obtain rfl : fault' = fault := Except.error.inj hcopy
        exact ⟨rfl, hfetched, id⟩
      | .ok (bytes, kept), .ok (bytes', kept') =>
        obtain rfl : bytes' = bytes := Except.ok.inj hcopy
        have hkept : scratch' = scratch → kept' = kept := fun heq => (Prod.mk.inj (Except.ok.inj (hsame heq))).2
        obtain ⟨haccept, haccepted⟩ :=
          h.accept bytes' (h.note (.offered span bytes') (fun _ => Event.noConfusion) hfetched)
        dsimp only
        generalize host.accept bytes' (host.note (.offered span bytes') s) = accepted at haccept haccepted ⊢
        generalize host'.accept bytes' (host'.note (.offered span bytes') t) = accepted' at haccept haccepted ⊢
        obtain ⟨answer, s⟩ := accepted
        obtain ⟨answer', t⟩ := accepted'
        obtain rfl : answer' = answer := haccept
        cases answer' with
        | ok => exact ⟨rfl, h.note _ (fun _ => Event.noConfusion) haccepted, hkept⟩
        | error cause => exact ⟨rfl, h.note _ (fun _ => Event.noConfusion) haccepted, hkept⟩
    · exact ⟨rfl, hfetched, id⟩

theorem deliverRest (h : host.Alike host' R) (plan : Plan) (done : Transfer) (delivered : Nat)
    (scratch scratch' : Scratch) (hs : R s t) :
    (host'.deliverRest plan done delivered scratch' t).1 = (host.deliverRest plan done delivered scratch s).1 ∧
      R (host.deliverRest plan done delivered scratch s).2.2
        (host'.deliverRest plan done delivered scratch' t).2.2 ∧
      (scratch' = scratch → (host'.deliverRest plan done delivered scratch' t).2.1 =
        (host.deliverRest plan done delivered scratch s).2.1) := by
  induction hr : plan.remaining using Nat.strongRecOn generalizing plan done delivered scratch scratch' s t with
  | _ r ih =>
    cases hnext : plan.next with
    | error fault =>
      rw [host.deliverRest_of_fault _ _ _ _ hnext, host'.deliverRest_of_fault _ _ _ _ hnext]
      exact ⟨rfl, hs, id⟩
    | ok next =>
      cases next with
      | none =>
        rw [host.deliverRest_of_none _ _ _ _ hnext, host'.deliverRest_of_none _ _ _ _ hnext]
        exact ⟨rfl, h.note _ (fun _ => Event.noConfusion) hs, id⟩
      | some next =>
        obtain ⟨span, rest⟩ := next
        obtain ⟨hhanded, hafter, hkept⟩ := h.handOut plan.geometry done delivered span scratch scratch' hs
        rw [host.deliverRest_of_some _ _ _ _ hnext, host'.deliverRest_of_some _ _ _ _ hnext]
        generalize host.handOut plan.geometry done delivered span scratch s = handed at hhanded hafter hkept ⊢
        generalize host'.handOut plan.geometry done delivered span scratch' t = handed' at hhanded hafter hkept ⊢
        obtain ⟨outcome, kept, s⟩ := handed
        obtain ⟨outcome', kept', t⟩ := handed'
        obtain rfl : outcome' = outcome := hhanded
        cases outcome' with
        | error halt => exact ⟨rfl, hafter, hkept⟩
        | ok =>
          dsimp only
          split
          · obtain ⟨houtcome, hend, hsame⟩ :=
              ih _ (hr ▸ Plan.remaining_lt_of_next hnext) rest _ _ kept kept' hafter rfl
            exact ⟨houtcome, hend, fun heq => hsame (hkept heq)⟩
          · exact ⟨rfl, hafter, hkept⟩
          · exact ⟨rfl, hafter, hkept⟩

/-- Deliveries in surroundings that answer alike have the same outcome, whatever their scratches hold;
if the scratches were equal before, they are equal after it. -/
theorem deliver (h : host.Alike host' R) (g : Geometry) (start len : Nat) (scratch scratch' : Scratch) (hs : R s t) :
    (host'.deliver g start len scratch' t).1 = (host.deliver g start len scratch s).1 ∧
      R (host.deliver g start len scratch s).2.2 (host'.deliver g start len scratch' t).2.2 ∧
      (scratch' = scratch →
        (host'.deliver g start len scratch' t).2.1 = (host.deliver g start len scratch s).2.1) := by
  unfold Host.deliver
  split
  · exact ⟨rfl, hs, id⟩
  · split
    · exact ⟨rfl, hs, id⟩
    · split
      · exact h.deliverRest _ _ _ scratch scratch' (h.note _ (fun _ => Event.noConfusion) hs)
      · exact ⟨rfl, hs, id⟩
      · exact ⟨rfl, hs, id⟩

/-! ## Transfers -/

theorem readPosition (h : host.Alike host' R) (g : Geometry) (hs : R s t) :
    (host'.readPosition g t).1 = (host.readPosition g s).1 ∧ R (host.readPosition g s).2 (host'.readPosition g t).2 := by
  obtain ⟨hposition, hread⟩ := h.position hs
  unfold Host.readPosition
  dsimp only
  rw [hposition]
  exact ⟨rfl, h.note _ (fun _ => Event.noConfusion) hread⟩

/-- Transfers of drains that are not shared. -/
theorem sequential (h : host.Alike host' R) (g : Geometry) (cursor : Nat) (own own' : Scratch) (hs : R s t) :
    (Sequential.transfer host' g cursor own' t).1 = (Sequential.transfer host g cursor own s).1 ∧
      (Sequential.transfer host' g cursor own' t).2.1 = (Sequential.transfer host g cursor own s).2.1 ∧
      R (Sequential.transfer host g cursor own s).2.2.2 (Sequential.transfer host' g cursor own' t).2.2.2 ∧
      (own' = own →
        (Sequential.transfer host' g cursor own' t).2.2.1 = (Sequential.transfer host g cursor own s).2.2.1) := by
  obtain ⟨hposition, hread⟩ := h.readPosition g hs
  unfold Sequential.transfer
  generalize host.readPosition g s = read at hposition hread ⊢
  generalize host'.readPosition g t = read' at hposition hread ⊢
  obtain ⟨answer, s⟩ := read
  obtain ⟨answer', t⟩ := read'
  obtain rfl : answer' = answer := hposition
  cases answer' with
  | error halt => exact ⟨rfl, rfl, hread, id⟩
  | ok position =>
    dsimp only
    split
    · split
      · exact ⟨rfl, rfl, hread, id⟩
      · next len _ =>
        obtain ⟨houtcome, hafter, hkept⟩ := h.deliver g cursor len own own' hread
        generalize host.deliver g cursor len own s = delivery at houtcome hafter hkept ⊢
        generalize host'.deliver g cursor len own' t = delivery' at houtcome hafter hkept ⊢
        obtain ⟨outcome, kept, s⟩ := delivery
        obtain ⟨outcome', kept', t⟩ := delivery'
        obtain rfl : outcome' = outcome := houtcome
        cases outcome' with
        | ok report => exact ⟨rfl, rfl, hafter, hkept⟩
        | error halt => exact ⟨rfl, rfl, hafter, hkept⟩
    · exact ⟨rfl, rfl, hread, id⟩

variable {cell : Concurrent.Cell σ} {cell' : Concurrent.Cell τ}

theorem claim (h : host.Alike host' R) (hload : ∀ {s t}, R s t → cell'.load t = cell.load s)
    (hstore : ∀ {s t} (position : Nat), R s t → R (cell.store position s) (cell'.store position t)) (g : Geometry)
    (attempts retries : Nat) (hs : R s t) :
    (Concurrent.claim host' cell' g attempts retries t).1 = (Concurrent.claim host cell g attempts retries s).1 ∧
      R (Concurrent.claim host cell g attempts retries s).2 (Concurrent.claim host' cell' g attempts retries t).2 := by
  induction attempts generalizing retries s t with
  | zero => exact ⟨rfl, hs⟩
  | succ attempts ih =>
    obtain ⟨hposition, hread⟩ := h.readPosition g (h.note (.loaded (cell.load s)) (fun _ => Event.noConfusion) hs)
    unfold Concurrent.claim
    dsimp only
    rw [hload hs]
    generalize host.readPosition g (host.note (.loaded (cell.load s)) s) = read at hposition hread ⊢
    generalize host'.readPosition g (host'.note (.loaded (cell.load s)) t) = read' at hposition hread ⊢
    obtain ⟨answer, s'⟩ := read
    obtain ⟨answer', t'⟩ := read'
    obtain rfl : answer' = answer := hposition
    cases answer' with
    | error halt => exact ⟨rfl, hread⟩
    | ok position =>
      dsimp only
      rw [hload hread]
      split
      · split
        · exact ⟨rfl, h.note _ (fun _ => Event.noConfusion) (hstore position hread)⟩
        · split
          · exact ⟨rfl, hread⟩
          · exact ih _ (h.note _ (fun _ => Event.noConfusion) hread)
      · exact ⟨rfl, hread⟩

/-- Transfers of shared drains. -/
theorem concurrent (h : host.Alike host' R) (hload : ∀ {s t}, R s t → cell'.load t = cell.load s)
    (hstore : ∀ {s t} (position : Nat), R s t → R (cell.store position s) (cell'.store position t)) (g : Geometry)
    (attempts : Nat) (scratch scratch' : Scratch) (hs : R s t) :
    (Concurrent.transfer host' cell' g attempts scratch' t).1 = (Concurrent.transfer host cell g attempts scratch s).1 ∧
      R (Concurrent.transfer host cell g attempts scratch s).2.2
        (Concurrent.transfer host' cell' g attempts scratch' t).2.2 ∧
      (scratch' = scratch → (Concurrent.transfer host' cell' g attempts scratch' t).2.1 =
        (Concurrent.transfer host cell g attempts scratch s).2.1) := by
  obtain ⟨hanswer, hclaimed⟩ := h.claim hload hstore g attempts 0 hs
  unfold Concurrent.transfer
  generalize Concurrent.claim host cell g attempts 0 s = claimed at hanswer hclaimed ⊢
  generalize Concurrent.claim host' cell' g attempts 0 t = claimed' at hanswer hclaimed ⊢
  obtain ⟨answer, s⟩ := claimed
  obtain ⟨answer', t⟩ := claimed'
  obtain rfl : answer' = answer := hanswer
  rcases answer' with halt | position | ⟨start, stop⟩
  · exact ⟨rfl, hclaimed, id⟩
  · exact ⟨rfl, hclaimed, id⟩
  · dsimp only
    split
    · exact ⟨rfl, hclaimed, id⟩
    · exact h.deliver g start _ scratch scratch' hclaimed

end Alike

end Host

/-! ## Lines -/

/-- A chunk is cut into the same lines, and both consumers do the same with it if they do so with each line. -/
theorem LineFramer.feed_alike {σ τ : Type} {R : σ → τ → Prop} {onLine : Bytes → σ → Except SinkError Unit × σ}
    {onLine' : Bytes → τ → Except SinkError Unit × τ}
    (h : ∀ line {s t}, R s t → (onLine' line t).1 = (onLine line s).1 ∧ R (onLine line s).2 (onLine' line t).2)
    (framer : LineFramer) (chunk : Bytes) {s : σ} {t : τ} (hs : R s t) :
    (framer.feed onLine' chunk t).1 = (framer.feed onLine chunk s).1 ∧
      (framer.feed onLine' chunk t).2.1 = (framer.feed onLine chunk s).2.1 ∧
      R (framer.feed onLine chunk s).2.2 (framer.feed onLine' chunk t).2.2 := by
  induction hn : chunk.length using Nat.strongRecOn generalizing framer chunk s t with
  | _ n ih =>
    rw [LineFramer.feed, LineFramer.feed]
    split
    · exact ⟨rfl, rfl, hs⟩
    · next line rest hcut =>
      obtain ⟨hanswer, hafter⟩ := h (framer.pending.toList ++ line) hs
      rw [LineFramer.emit_eq, LineFramer.emit_eq]
      generalize onLine (framer.pending.toList ++ line) s = offered at hanswer hafter ⊢
      generalize onLine' (framer.pending.toList ++ line) t = offered' at hanswer hafter ⊢
      obtain ⟨answer, s⟩ := offered
      obtain ⟨answer', t⟩ := offered'
      obtain rfl : answer' = answer := hanswer
      cases answer' with
      | ok => exact ih _ (hn ▸ length_lt_of_cut hcut) _ rest hafter rfl
      | error cause => exact ⟨rfl, rfl, hafter⟩

end PagedRing
