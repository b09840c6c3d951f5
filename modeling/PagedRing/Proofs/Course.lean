import PagedRing.Proofs.History
import PagedRing.Proofs.Tiling

/-!
# The course of a transfer

What a transfer does follows a fixed course: attempts to find unread bytes, at most one claim, at most one range, and
then chunk after chunk, each of which its sink accepts or refuses. `Course` says which deeds may follow which; deeds
are listed with the latest first.

* `Course.trying`: as long as a transfer looks for unread bytes, it has done nothing else.
* `Course.left_of_planned`: how much of the range is left, from the chunks that were offered.
* `Course.spans_of_planned`: the chunks that were offered are the first spans of the range.
* `Course.accepted_of_handing`: between two chunks, every chunk that was offered was accepted.
-/

namespace PagedRing

namespace Event

/-- Whether an event belongs to an attempt to find unread bytes. -/
def attempt : Event → Bool
  | .began _ _ | .loaded _ | .prompted _ | .sampled _ | .lost _ _ _ => true
  | _ => false

/-- Whether an attempt may start after an event. -/
def rests : Event → Bool
  | .began _ _ | .lost _ _ _ => true
  | _ => false

/-- Whether the write position may be read after an event. -/
def looks : Event → Bool
  | .began _ _ | .loaded _ => true
  | _ => false

/-- Whether a range may be delivered after an event. -/
def finds : Event → Bool
  | .sampled _ | .claimed _ _ _ => true
  | _ => false

theorem attempt_of_rests {ev : Event} (h : ev.rests = true) : ev.attempt = true := by
  cases ev <;> first | rfl | cases h

theorem attempt_of_looks {ev : Event} (h : ev.looks = true) : ev.attempt = true := by
  cases ev <;> first | rfl | cases h

end Event

namespace Session

/-! ## What deeds amount to -/

/-- The cursor that was read last. -/
def loaded? : List Event → Option Nat
  | [] => none
  | .loaded cursor :: _ => some cursor
  | _ :: ds => loaded? ds

/-- The number of lost attempts. -/
def losses : List Event → Nat
  | [] => 0
  | .lost _ _ _ :: ds => losses ds + 1
  | _ :: ds => losses ds

/-- The range whose delivery began. -/
def planned? : List Event → Option Plan
  | [] => none
  | .planned plan :: _ => some plan
  | _ :: ds => planned? ds

/-- The range whose delivery began, less the chunks that were offered since. -/
def left? : List Event → Option Plan
  | [] => none
  | .planned plan :: _ => some plan
  | .offered span _ :: ds => (left? ds).map fun left => { left with planned := left.planned + span.len }
  | _ :: ds => left? ds

/-- The number of bytes of chunks. -/
def size (chunks : List (Span × Bytes)) : Nat := (chunks.map fun chunk => chunk.1.len).sum

/-- Whether a transfer stands between two chunks. -/
def Handing (ds : List Event) : Prop :=
  (∃ plan es, ds = .planned plan :: es) ∨ ∃ span bytes es, ds = .accepted span bytes :: es

/-- The courses that a transfer may take. -/
inductive Course : List Event → Prop
  | began (d k : Nat) : Course [.began d k]
  | loaded {ev : Event} {ds : List Event} (cursor : Nat) :
      Course (ev :: ds) → ev.rests = true → Course (.loaded cursor :: ev :: ds)
  | prompted {ev : Event} {ds : List Event} (cues : Nat) :
      Course (ev :: ds) → ev.looks = true → Course (.prompted cues :: ev :: ds)
  | sampled {ev : Event} {ds : List Event} (position : Nat) :
      Course (ev :: ds) → (ev.looks = true ∨ ∃ cues, ev = .prompted cues) → Course (.sampled position :: ev :: ds)
  | lost {position expected : Nat} {ds : List Event} (seen : Nat) : Course (.sampled position :: ds) →
      loaded? ds = some expected → Course (.lost expected seen (losses ds + 1) :: .sampled position :: ds)
  | claimed {start stop : Nat} {ds : List Event} : Course (.sampled stop :: ds) →
      loaded? ds = some start → Course (.claimed start stop (losses ds) :: .sampled stop :: ds)
  | planned {ev : Event} {ds : List Event} {plan : Plan} :
      Course (ev :: ds) → ev.finds = true → plan.Fits → plan.planned = 0 → Course (.planned plan :: ev :: ds)
  | offered {ds : List Event} {left : Plan} (bytes : Bytes) :
      Course ds → Handing ds → left? ds = some left → left.planned < left.len → Course (.offered left.head bytes :: ds)
  | accepted {ds : List Event} {span : Span} {bytes : Bytes} :
      Course (.offered span bytes :: ds) → Course (.accepted span bytes :: .offered span bytes :: ds)
  | refused {ds : List Event} {span : Span} {bytes : Bytes} {plan : Plan} {stop : Nat} (cause : SinkError) :
      Course (.offered span bytes :: ds) → planned? ds = some plan →
      plan.geometry.advance plan.start plan.len = .ok stop →
      Course (.refused plan.start stop (size (chunksAccepted ds)) plan.len cause :: .offered span bytes :: ds)
  | delivered {ds : List Event} {plan left : Plan} {stop : Nat} :
      Course ds → Handing ds → planned? ds = some plan → left? ds = some left → left.planned = left.len →
      plan.geometry.advance plan.start plan.len = .ok stop →
      Course (.delivered ⟨plan.start, stop, plan.len, (chunksAccepted ds).length⟩ :: ds)
  | ended {ds : List Event} (outcome : Except Halt Transfer) :
      Course ds → (∀ o, Event.ended o ∉ ds) → Course (.ended outcome :: ds)

theorem loaded?_mem {ds : List Event} {cursor : Nat} (h : loaded? ds = some cursor) : Event.loaded cursor ∈ ds := by
  induction ds with
  | nil => cases h
  | cons ev ds ih =>
    cases ev with
    | loaded cursor' => cases h; exact List.mem_cons_self
    | _ => exact List.mem_cons_of_mem _ (ih h)

theorem planned?_mem {ds : List Event} {plan : Plan} (h : planned? ds = some plan) : Event.planned plan ∈ ds := by
  induction ds with
  | nil => cases h
  | cons ev ds ih =>
    cases ev with
    | planned plan' => cases h; exact List.mem_cons_self
    | _ => exact List.mem_cons_of_mem _ (ih h)

theorem planned?_of_left? {ds : List Event} {left : Plan} (h : left? ds = some left) :
    ∃ plan, planned? ds = some plan := by
  induction ds generalizing left with
  | nil => cases h
  | cons ev ds ih =>
    cases ev with
    | planned plan => exact ⟨plan, rfl⟩
    | offered span bytes =>
      obtain ⟨left', hl, -⟩ := Option.map_eq_some_iff.mp h
      exact ih hl
    | _ => exact ih h

namespace Course

variable {ds : List Event} {ev : Event} {plan left : Plan}

/-! ## Attempts -/

/-- As long as a transfer looks for unread bytes, it has done nothing else. -/
theorem trying (h : Course ds) : ∀ {ev : Event} {es : List Event}, ds = ev :: es → ev.attempt = true →
    ∀ x ∈ ds, x.attempt = true := by
  induction h with
  | began d k => intro ev es _ _; simp [Event.attempt]
  | loaded cursor _ hr ih =>
    intro ev es _ _
    exact List.forall_mem_cons.mpr ⟨rfl, ih rfl (Event.attempt_of_rests hr)⟩
  | prompted cues _ hr ih =>
    intro ev es _ _
    exact List.forall_mem_cons.mpr ⟨rfl, ih rfl (Event.attempt_of_looks hr)⟩
  | sampled position _ hr ih =>
    intro ev es _ _
    refine List.forall_mem_cons.mpr ⟨rfl, ih rfl ?_⟩
    rcases hr with hr | ⟨cues, rfl⟩
    · exact Event.attempt_of_looks hr
    · rfl
  | lost seen _ _ ih =>
    intro ev es _ _
    exact List.forall_mem_cons.mpr ⟨rfl, ih rfl rfl⟩
  | claimed | planned | offered | accepted | refused | delivered | ended =>
    intro ev es hds hev
    cases hds
    cases hev

/-- A transfer that does not go by a cursor that others move reads the write position once. -/
theorem sampled_first {position : Nat} (h : Course (.sampled position :: ds))
    (hnone : ∀ cursor, Event.loaded cursor ∉ Event.sampled position :: ds) (position' : Nat) :
    Event.sampled position' ∉ ds := by
  have hbegan : ∀ {ev : Event} {es : List Event}, Course (ev :: es) → ev.looks = true →
      (∀ cursor, ev ≠ .loaded cursor) → ∃ d k, ev = .began d k ∧ es = [] := by
    intro ev es hcourse hlooks hloaded
    cases hcourse with
    | began d k => exact ⟨d, k, rfl, rfl⟩
    | loaded cursor => exact absurd rfl (hloaded cursor)
    | prompted | sampled | lost | claimed | planned | offered | accepted | refused | delivered | ended => cases hlooks
  cases h with
  | @sampled ev ds position h hlooks =>
    have hev : ∀ cursor, ev ≠ .loaded cursor := fun cursor heq => hnone cursor (by simp [heq])
    rcases hlooks with hlooks | ⟨cues, rfl⟩
    · obtain ⟨d, k, rfl, rfl⟩ := hbegan h hlooks hev
      simp
    · cases h with
      | @prompted ev ds cues h hlooks =>
        obtain ⟨d, k, rfl, rfl⟩ := hbegan h hlooks fun cursor heq => hnone cursor (by simp [heq])
        simp

/-- An attempt comes before every claim, range and chunk. -/
theorem of_trying (h : ∀ x ∈ ds, x.attempt = true) :
    planned? ds = none ∧ left? ds = none ∧ chunksOffered ds = [] ∧ chunksAccepted ds = [] := by
  induction ds with
  | nil => exact ⟨rfl, rfl, rfl, rfl⟩
  | cons ev ds ih =>
    obtain ⟨hev, hds⟩ := List.forall_mem_cons.mp h
    have := ih hds
    cases ev <;> first | exact this | cases hev

/-- No range comes before a claim or a read of the write position. -/
theorem of_finds (h : Course (ev :: ds)) (hf : ev.finds = true) :
    planned? ds = none ∧ left? ds = none ∧ chunksOffered ds = [] ∧ chunksAccepted ds = [] := by
  cases h with
  | sampled position h hr => exact of_trying (List.forall_mem_cons.mp (trying (.sampled position h hr) rfl rfl)).2
  | claimed h hl => exact of_trying (trying h rfl rfl)
  | began | loaded | prompted | lost | planned | offered | accepted | refused | delivered | ended => cases hf

/-! ## Chunks -/

/-- The chunks that were offered and what is left of a range, as they belong together. -/
structure Tally (chunks : List (Span × Bytes)) (left : Option Plan) (plan : Plan) : Prop where
  fits : plan.Fits
  planned : plan.planned = 0
  size_le : size chunks ≤ plan.len
  left : left = some { plan with planned := size chunks }
  spans : ∀ l, Plan.spans { plan with planned := size chunks } = .ok l →
    plan.spans = .ok (chunks.map Prod.fst ++ l)

/-- The next span joins the chunks. -/
theorem Tally.snoc {chunks : List (Span × Bytes)} {left : Plan} (h : Tally chunks (some left) plan)
    (hlt : left.planned < left.len) (bytes : Bytes) :
    Tally (chunks ++ [(left.head, bytes)]) (some left.skip) plan := by
  obtain rfl : left = { plan with planned := size chunks } := Option.some.inj h.left
  have hfits : Plan.Fits { plan with planned := size chunks } := ⟨h.fits.start_lt, h.fits.len_le, h.size_le⟩
  have hsize : size (chunks ++ [((Plan.head { plan with planned := size chunks }), bytes)]) =
      size chunks + Plan.step { plan with planned := size chunks } := by
    simp [size, Plan.head]
  refine ⟨h.fits, h.planned, ?_, ?_, ?_⟩
  · rw [hsize]; exact Plan.planned_add_step_le hfits
  · rw [hsize]; rfl
  · intro l hl
    rw [hsize] at hl
    have hcons : Plan.spans { plan with planned := size chunks } =
        .ok (Plan.head { plan with planned := size chunks } :: l) := by
      rw [Plan.spans_of_lt hfits hlt]
      exact congrArg (Except.map _) hl
    rw [h.spans _ hcons]
    simp

theorem tally (h : Course ds) :
    ∀ {plan : Plan}, planned? ds = some plan → Tally (chunksOffered ds) (left? ds) plan := by
  induction h with
  | began d k => intro plan hp; cases hp
  | loaded _ _ _ ih | prompted _ _ _ ih | sampled _ _ _ ih | lost _ _ _ ih | claimed _ _ ih | accepted _ ih
  | refused _ _ _ _ ih | delivered _ _ _ _ _ _ ih | ended _ _ _ ih => exact ih
  | @planned ev ds plan h hf hfits hzero _ =>
    intro plan' hp
    cases hp
    have hnone : chunksOffered (ev :: ds) = [] := by
      have := (of_finds h hf).2.2.1
      cases ev <;> first | exact this | cases hf
    have hplan : ({ plan with planned := 0 } : Plan) = plan := by rw [← hzero]
    show Tally (chunksOffered (ev :: ds)) (some plan) plan
    rw [hnone]
    refine ⟨hfits, hzero, Nat.zero_le _, ?_, ?_⟩
    · exact congrArg some hplan.symm
    · intro l hl
      exact (congrArg Plan.spans hplan).symm.trans hl
  | offered bytes _ _ hleft hlt ih =>
    intro plan hp
    have h := ih hp
    rw [hleft] at h
    have := h.snoc hlt bytes
    simpa only [chunksOffered, left?, hleft, Option.map_some, Plan.skip, Plan.head] using this

/-- How much of the range is left. -/
theorem left_of_planned (h : Course ds) (hp : planned? ds = some plan) :
    left? ds = some { plan with planned := size (chunksOffered ds) } := (tally h hp).left

/-- The chunks that were offered are the first spans of the range. -/
theorem spans_of_planned (h : Course ds) (hp : planned? ds = some plan) :
    ∃ l, plan.spans = .ok ((chunksOffered ds).map Prod.fst ++ l) := by
  have ht := tally h hp
  obtain ⟨l, hl⟩ := Plan.exists_spans (p := { plan with planned := size (chunksOffered ds) })
    ⟨ht.fits.start_lt, ht.fits.len_le, ht.size_le⟩
  exact ⟨l, ht.spans l hl⟩

/-- A transfer that offers chunks delivers a range. -/
theorem planned_of_offered (h : Course ds) (hne : chunksOffered ds ≠ []) : ∃ plan, planned? ds = some plan := by
  induction h with
  | began => exact absurd rfl hne
  | planned => exact ⟨_, rfl⟩
  | offered _ _ _ hleft _ _ =>
    have hplan := planned?_of_left? hleft
    exact hplan
  | loaded _ _ _ ih | prompted _ _ _ ih | sampled _ _ _ ih | lost _ _ _ ih | claimed _ _ ih | accepted _ ih
  | refused _ _ _ _ ih | delivered _ _ _ _ _ _ ih | ended _ _ _ ih => exact ih hne

/-- Nothing comes after the end of a transfer. -/
theorem unended (h : Course (ev :: ds)) {outcome : Except Halt Transfer} : Event.ended outcome ∉ ds := by
  generalize hes : ev :: ds = es at h
  induction h generalizing ev ds with
  | began => cases hes; simp
  | ended outcome' _ hno _ =>
    cases hes
    exact hno outcome
  | claimed _ _ ih | lost _ _ _ ih | accepted _ ih | refused _ _ _ _ ih =>
    cases hes
    exact List.not_mem_cons_of_ne_of_not_mem nofun (ih rfl)
  | loaded _ _ hr ih | prompted _ _ hr ih | planned _ hr _ _ ih =>
    cases hes
    refine List.not_mem_cons_of_ne_of_not_mem ?_ (ih rfl)
    rintro rfl
    cases hr
  | sampled _ _ hr ih =>
    cases hes
    refine List.not_mem_cons_of_ne_of_not_mem ?_ (ih rfl)
    rintro rfl
    rcases hr with hr | ⟨cues, hr⟩ <;> cases hr
  | offered _ _ hh _ _ ih | delivered _ hh _ _ _ _ ih =>
    cases hes
    rcases hh with ⟨plan, es, rfl⟩ | ⟨span, bytes, es, rfl⟩ <;> exact List.not_mem_cons_of_ne_of_not_mem nofun (ih rfl)

/-- What is left of a range that was planned fits its ring. -/
theorem fits_of_planned (h : Course ds) (hp : planned? ds = some plan) :
    Plan.Fits { plan with planned := size (chunksOffered ds) } := by
  have ht := tally h hp
  exact ⟨ht.fits.start_lt, ht.fits.len_le, ht.size_le⟩

/-- No chunk is empty. -/
theorem length_le_size (h : Course ds) : (chunksOffered ds).length ≤ size (chunksOffered ds) := by
  induction h with
  | @offered ds left bytes _ _ _ hlt ih =>
    have := Plan.step_pos hlt
    simp only [chunksOffered, size, List.length_append, List.length_cons, List.length_nil, List.map_append,
      List.map_cons, List.map_nil, List.sum_append, List.sum_cons, List.sum_nil, Plan.head] at ih ⊢
    omega
  | began => exact Nat.zero_le _
  | loaded _ _ _ ih | prompted _ _ _ ih | sampled _ _ _ ih | lost _ _ _ ih | claimed _ _ ih | planned _ _ _ _ ih
  | accepted _ ih | refused _ _ _ _ ih | delivered _ _ _ _ _ _ ih | ended _ _ _ ih => exact ih

/-- Every chunk is accepted before the next one is offered. -/
theorem accepted_eq_offered (h : Course ds) : (Handing ds → chunksAccepted ds = chunksOffered ds) ∧
    ∀ span bytes es, ds = .offered span bytes :: es → chunksAccepted es = chunksOffered es := by
  induction h with
  | @planned ev ds plan h hf _ _ _ =>
    obtain ⟨-, -, ho, ha⟩ := of_finds h hf
    refine ⟨fun _ => ?_, fun _ _ _ hds => by cases hds⟩
    have heq := ha.trans ho.symm
    cases ev <;> first | exact heq | cases hf
  | offered bytes _ hh _ _ ih =>
    refine ⟨fun hh' => ?_, fun _ _ _ hds => ?_⟩
    · rcases hh' with ⟨_, _, hh'⟩ | ⟨_, _, _, hh'⟩ <;> cases hh'
    · cases hds
      exact ih.1 hh
  | accepted _ ih =>
    refine ⟨fun _ => ?_, fun _ _ _ hds => by cases hds⟩
    exact congrArg (· ++ [_]) (ih.2 _ _ _ rfl)
  | began | loaded | prompted | sampled | lost | claimed | refused | delivered | ended =>
    refine ⟨fun hh => ?_, fun _ _ _ hds => by cases hds⟩
    rcases hh with ⟨_, _, hh⟩ | ⟨_, _, _, hh⟩ <;> cases hh

/-- The chunks that were accepted are the first ones that were offered. -/
theorem accepted_isPrefix (h : Course ds) : chunksAccepted ds <+: chunksOffered ds := by
  have heq := accepted_eq_offered h
  induction h with
  | began => exact List.prefix_rfl
  | @offered ds left bytes h hh _ _ _ =>
    show chunksAccepted ds <+: chunksOffered ds ++ [_]
    rw [(accepted_eq_offered h).1 hh]
    exact List.prefix_append _ _
  | accepted h _ =>
    have hsame := heq.1 (Or.inr ⟨_, _, _, rfl⟩)
    exact hsame ▸ List.prefix_rfl
  | loaded _ h _ ih | prompted _ h _ ih | sampled _ h _ ih | lost _ h _ ih | claimed h _ ih | planned h _ _ _ ih
  | refused _ h _ _ ih | delivered h _ _ _ _ _ ih | ended _ h _ ih => exact ih (accepted_eq_offered h)

/-- Between two chunks, every chunk that was offered was accepted. -/
theorem accepted_of_handing (h : Course ds) (hh : Handing ds) : chunksAccepted ds = chunksOffered ds :=
  (accepted_eq_offered h).1 hh

/-- While a chunk is offered, every chunk before it was accepted. -/
theorem accepted_of_offered {span : Span} {bytes : Bytes} (h : Course (.offered span bytes :: ds)) :
    chunksAccepted ds = chunksOffered ds :=
  (accepted_eq_offered h).2 _ _ _ rfl

end Course

end Session

end PagedRing
