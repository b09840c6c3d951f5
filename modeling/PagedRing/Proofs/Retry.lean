import PagedRing.Proofs.Recording
import PagedRing.Proofs.Retained

/-!
# Retries

A transfer that fails is made up for by the next one that succeeds: what the successful transfers of a drain delivered
is the stream, without a gap and without a repetition, and what a failed one had accepted is the beginning of what the
next successful one delivers.

* `Lawful.retried`: the chunks of a failed transfer are the first ones of the next success.
* `Lawful.deliveredTo`: what the successful transfers have delivered.
* `Lawful.inOrder`: all of this for every lawful history.
* `delivered_in_order`: for every moment of every session.
-/

namespace PagedRing.Session

variable {origin : Source} {n m d : Nat} {past before : List Entry} {drain : Drain} {ring : Ring} {e : Entry}
  {drains : Array (Option Drain)} {source : Source} {plan : Plan} {report : Transfer}

/-! ## Chunks that begin at the same byte -/

/-- Chunks of the same bytes agree as far as their spans do. -/
theorem prefix_of_spans {chunks more : List (Span × Bytes)} {bytes : Bytes}
    (hspans : chunks.map Prod.fst <+: more.map Prod.fst) (hlen : ∀ chunk ∈ chunks, chunk.2.length = chunk.1.len)
    (hlen' : ∀ chunk ∈ more, chunk.2.length = chunk.1.len) (hbytes : content chunks <+: bytes)
    (hbytes' : content more <+: bytes) : chunks <+: more := by
  induction chunks generalizing more bytes with
  | nil => exact List.nil_prefix
  | cons chunk chunks ih =>
    cases more with
    | nil => cases List.prefix_nil.mp hspans
    | cons chunk' more =>
      obtain ⟨hspan, hrest⟩ := List.cons_prefix_cons.mp hspans
      obtain ⟨hone, hmany⟩ := List.forall_mem_cons.mp hlen
      obtain ⟨hone', hmany'⟩ := List.forall_mem_cons.mp hlen'
      obtain ⟨tail, rfl⟩ := hbytes
      obtain ⟨tail', htail⟩ := hbytes'
      simp only [content, List.map_cons, List.flatten_cons, List.append_assoc] at htail
      obtain ⟨hsame, htail⟩ := List.append_inj htail (by rw [hone', hone, hspan])
      exact List.cons_prefix_cons.mpr
        ⟨Prod.ext hspan hsame.symm, ih hrest hmany hmany' (List.prefix_append _ tail) ⟨tail', htail⟩⟩

namespace Lawful

/-- What a sink has accepted is the beginning of what it was offered. -/
theorem accepted_of_window (h : Lawful origin past) (hd : drainOf n past = some d) (hw : Window d past n plan) :
    content (chunksAccepted (deeds n past)) <+: (stream d past).drop (settledLen d past) := by
  obtain ⟨more, hmore⟩ := (h.course hd).accepted_isPrefix
  refine List.IsPrefix.trans ⟨content more, ?_⟩ (List.take_prefix (size (chunksOffered (deeds n past))) _)
  rw [← content_append, hmore]
  exact hw.bytes

/-- The chunks that a sink has accepted are as long as their spans. -/
theorem length_of_accepted (h : Lawful origin past) (hd : drainOf n past = some d) :
    ∀ chunk ∈ chunksAccepted (deeds n past), chunk.2.length = chunk.1.len := by
  obtain ⟨drain, ho⟩ := h.opened_of_drainOf hd
  intro chunk hchunk
  exact h.length_of_offered hd ho chunk ((h.course hd).accepted_isPrefix.subset hchunk)

/-- A transfer that finds nothing has nothing to make up for. -/
theorem length_of_emptyAt (h : Lawful (.ring ring) past) (ho : opened? d past = some drain)
    (hd : drainOf n past = some d) (hg : drain.geometry = ring.geometry) (ha : Abreast d past)
    (hr : Retained drain d past) (hlatest : Latest n (.sampled (settledTo d past)) past) :
    settledLen d past = (stream d past).length := by
  have hposition := h.sampled_eq ho hg hd hlatest
  rw [backlog_of_abreast h ho ha, Nat.zero_add, hr.settled] at hposition
  exact drain.geometry.eq_of_same_position hposition.symm hr.le hr.lt

/-- The chunks of a failed transfer are the first ones of the next success. -/
theorem retried (h : Lawful (.ring ring) (⟨n, .ended (.ok report), drains, source⟩ :: past))
    (hd : drainOf n past = some d) (ho : opened? d past = some drain) (hm : drain.mode ≠ .concurrent)
    (hg : drain.geometry = ring.geometry) (ha : Abreast d past) (hr : Retained drain d past)
    (hfailed : m ∈ failures d past) : chunksAccepted (deeds m past) <+: chunksAccepted (deeds n past) := by
  have hd' := drainOf_of_failure hfailed h.2.2
  have hcourse := h.2.2.course hd
  have hcourse' := h.2.2.course hd'
  have hno : ¬ Over n past := h.not_over rfl hd
  cases hplan' : planned? (deeds m past) with
  | none =>
    have hnone : chunksOffered (deeds m past) = [] := by
      by_contra hne
      obtain ⟨plan, hplan⟩ := hcourse'.planned_of_offered hne
      cases hplan'.symm.trans hplan
    have hprefix := hcourse'.accepted_isPrefix
    rw [hnone] at hprefix
    rw [List.prefix_nil.mp hprefix]
    exact List.nil_prefix
  | some plan' =>
    obtain ⟨hwindow', hstrict, -⟩ := hr.held m hd' (fun _ => hfailed) plan' hplan'
    obtain ⟨last, rest, hspans'⟩ := hstrict (over_of_failure hfailed)
    have htally' := hcourse'.tally hplan'
    rcases h.success_of_ended hd ho hm with ⟨-, hlatest, -⟩ | ⟨plan, hplan, -, -, hwhole, haccepted⟩
    · -- nothing was unread, but a failed transfer had found a range
      have hlen := h.2.2.length_of_emptyAt ho hd hg ha hr hlatest
      have hle := hwindow'.len_le
      rw [Plan.spans_of_end htally'.fits (by rw [htally'.planned]; omega), Except.ok.injEq] at hspans'
      simp at hspans'
    · obtain ⟨hwindow, -, hlonger⟩ := hr.held n hd (fun hover => absurd hover hno) plan hplan
      have htally := hcourse.tally hplan
      have hgeo : plan.geometry = plan'.geometry := by
        rw [h.2.2.planned_geometry hd ho (planned?_mem hplan), h.2.2.planned_geometry hd' ho (planned?_mem hplan')]
      obtain ⟨more, hmore⟩ := Plan.spans_of_longer htally'.fits htally.fits hgeo
        (hwindow.start.trans hwindow'.start.symm) (htally.planned.trans htally'.planned.symm)
        (hlonger hno m hfailed plan' hplan') hspans'
      have hall := htally.spans [] (Plan.spans_of_end (hcourse.fits_of_planned hplan) hwhole)
      rw [hmore, Except.ok.injEq, List.append_nil, ← haccepted] at hall
      exact prefix_of_spans ⟨more, hall⟩ (h.2.2.length_of_accepted hd') (h.2.2.length_of_accepted hd)
        (h.2.2.accepted_of_window hd' hwindow') (h.2.2.accepted_of_window hd hwindow)

end Lawful

/-! ## Bytes delivered -/

/-- The bytes that the successful transfers of a drain have delivered, in order. -/
def delivered (d : Nat) (past : List Entry) : Bytes :=
  ((successes d past).map fun n => content (chunksAccepted (deeds n past))).flatten

/-- Where the last successful transfer of a drain read the write position. -/
def LastRead (d : Nat) (past before : List Entry) : Prop :=
  ∃ n position drains source, (successes d past).getLast? = some n ∧
    ⟨n, .sampled position, drains, source⟩ :: before <:+ past

/-- The successful transfers of a drain have delivered the first bytes of its stream, and they are the stream up to the
write position that the last of them has read. -/
structure DeliveredTo (d : Nat) (past : List Entry) : Prop where
  bytes : delivered d past = (stream d past).take (settledLen d past)
  read : successes d past ≠ [] → ∃ before, LastRead d past before ∧ delivered d past = stream d before

/-- What a history tells of the stream of a drain that is not shared. -/
structure InOrder (drain : Drain) (d : Nat) (past : List Entry) : Prop where
  /-- Nothing is lost, and nothing is delivered twice. -/
  delivered : delivered d past = (stream d past).take (settledLen d past)
  /-- What was delivered is the stream up to the write position that the last successful transfer has read. -/
  read : successes d past ≠ [] → ∃ before, LastRead d past before
  upTo : ∀ before, LastRead d past before → Session.delivered d past = stream d before
  /-- The cursor stands after the bytes delivered, also after failures. -/
  cursor : ∀ e ∈ past.head?, ∀ own, e.drains[d]? = some (some own) →
    own.cursor = (drain.cursor + settledLen d past) % drain.geometry.capacity
  /-- What a failed transfer had accepted is the beginning of what the next successful one delivers, chunk by chunk. -/
  retried : ∀ n report drains source before, ⟨n, .ended (.ok report), drains, source⟩ :: before <:+ past →
    drainOf n before = some d →
      ∀ m ∈ failures d before, chunksAccepted (deeds m before) <+: chunksAccepted (deeds n before)

namespace Lawful

/-- A transfer that has succeeded is over. -/
theorem of_mem_successes (h : Lawful origin past) (hn : n ∈ successes d past) :
    drainOf n past = some d ∧ Over n past := by
  induction past with
  | nil => cases hn
  | cons e past ih =>
    obtain ⟨k, event, drains, source⟩ := e
    have hold : n ∈ successes d past → drainOf n (⟨k, event, drains, source⟩ :: past) = some d ∧
        Over n (⟨k, event, drains, source⟩ :: past) :=
      fun hn => ⟨h.drainOf_mono (List.suffix_cons _ _) (ih h.2.2 hn).1, (ih h.2.2 hn).2.cons⟩
    cases event with
    | ended outcome =>
      cases outcome with
      | ok report =>
        simp only [successes] at hn
        split at hn
        · next hd =>
          rcases List.mem_append.mp hn with hn | hn
          · exact hold hn
          · obtain rfl := List.mem_singleton.mp hn
            exact ⟨by rw [drainOf_of_drain? rfl]; exact hd, _, by rw [deeds_self rfl]; exact List.mem_cons_self⟩
        · exact hold hn
      | error cause => exact hold hn
    | _ => exact hold hn

/-- What a transfer has delivered stays as it is once the transfer is over. -/
theorem accepted_of_success (h : Lawful origin (e :: past)) (hn : n ∈ successes d past) :
    chunksAccepted (deeds n (e :: past)) = chunksAccepted (deeds n past) := by
  obtain ⟨hd, hover⟩ := h.2.2.of_mem_successes hn
  rw [h.deeds_of_over hd hover]

theorem delivered_cons (h : Lawful origin (e :: past)) (hsuccess : successes d (e :: past) = successes d past) :
    delivered d (e :: past) = delivered d past := by
  rw [delivered, delivered, hsuccess]
  exact congrArg List.flatten (List.map_congr_left fun n hn => by rw [h.accepted_of_success hn])

theorem delivered_of_succeeded (h : Lawful origin (⟨n, .ended (.ok report), drains, source⟩ :: past))
    (hd : drainOf n past = some d) : delivered d (⟨n, .ended (.ok report), drains, source⟩ :: past) =
      delivered d past ++ content (chunksAccepted (deeds n past)) := by
  have hsuccess : successes d (⟨n, .ended (.ok report), drains, source⟩ :: past) = successes d past ++ [n] := by
    simp only [successes, hd, ↓reduceIte]
  rw [delivered, hsuccess, List.map_append, List.flatten_append, List.map_singleton, List.flatten_singleton]
  congr 1
  · exact congrArg List.flatten (List.map_congr_left fun m hm => by rw [h.accepted_of_success hm])
  · rw [deeds_self rfl]
    rfl

/-- A transfer that succeeds has delivered the stream from the cursor to where it read the write position. -/
theorem content_of_succeeded (h : Lawful (.ring ring) (⟨n, .ended (.ok report), drains, source⟩ :: past))
    (hd : drainOf n past = some d) (ho : opened? d past = some drain) (hm : drain.mode ≠ .concurrent)
    (hg : drain.geometry = ring.geometry) (ha : Abreast d past) (hr : Retained drain d past) :
    content (chunksAccepted (deeds n past)) = ((stream d past).drop (settledLen d past)).take report.len ∧
      ∃ position drains source before, ⟨n, .sampled position, drains, source⟩ :: before <:+ past ∧
        stream d before = (stream d past).take (settledLen d past + report.len) := by
  have hno : ¬ Over n past := h.not_over rfl hd
  rcases h.success_of_ended hd ho hm with ⟨rfl, hlatest, -, hnone⟩ | ⟨plan, hplan, hlen, -, hwhole, haccepted⟩
  · have hall := h.2.2.length_of_emptyAt ho hd hg ha hr hlatest
    refine ⟨by rw [hnone]; exact List.take_zero.symm, ?_⟩
    generalize settledTo d past = position at hlatest
    obtain ⟨drains', source', before, rfl⟩ := hlatest
    refine ⟨position, drains', source', before, List.suffix_refl _, ?_⟩
    rw [show (Transfer.emptyAt position).len = 0 from rfl, Nat.add_zero, hall]
    exact List.take_length.symm
  · have hwindow := (hr.held n hd (fun hover => absurd hover hno) plan hplan).1
    rw [haccepted, hwindow.bytes, hwhole, hlen]
    exact ⟨rfl, hwindow.read⟩

/-- What settles nothing leaves alone what was delivered. -/
theorem deliveredTo_cons (h : Lawful origin (e :: past)) (hd : DeliveredTo d past)
    (hle : settledLen d past ≤ (stream d past).length) (hsuccess : successes d (e :: past) = successes d past)
    (hlen : settledLen d (e :: past) = settledLen d past) {bytes : Bytes}
    (hstream : stream d (e :: past) = stream d past ++ bytes) : DeliveredTo d (e :: past) := by
  have htake : (stream d (e :: past)).take (settledLen d (e :: past)) = (stream d past).take (settledLen d past) := by
    rw [hlen, hstream, List.take_append_of_le_length hle]
  refine ⟨by rw [h.delivered_cons hsuccess, htake]; exact hd.bytes, fun hne => ?_⟩
  rw [hsuccess] at hne
  obtain ⟨before, ⟨n, position, drains, source, hlast, hs⟩, hbefore⟩ := hd.read hne
  refine ⟨before, ⟨n, position, drains, source, hsuccess ▸ hlast, hs.trans (List.suffix_cons e past)⟩, ?_⟩
  rw [h.delivered_cons hsuccess, hbefore]

/-- The successful transfers have delivered the stream up to the write position that the last of them has read. -/
theorem deliveredTo (h : Lawful (.ring ring) past) (ho : opened? d past = some drain) (hm : drain.mode ≠ .concurrent)
    (hg : drain.geometry = ring.geometry) (ha : Abreast d past) (hk : KeptUp drain.geometry d (settledLen d) past) :
    DeliveredTo d past := by
  induction past with
  | nil => cases ho
  | cons e past ih =>
    have ha' := ha.tail
    obtain ⟨n, event, drains, source⟩ := e
    cases event with
    | opened d' cursor =>
      by_cases hdd : d' = d
      · subst hdd
        obtain ⟨-, hnone, -⟩ := h.1
        obtain ⟨hlen, hsuccess, -⟩ := h.2.2.unsettled_of_unopened hnone
        have hsuccess' : successes d' (⟨n, .opened d' cursor, drains, source⟩ :: past) = [] := hsuccess
        refine ⟨?_, fun hne => absurd hsuccess' hne⟩
        rw [delivered, hsuccess']
        simp only [stream, ↓reduceIte, List.take_nil]
        rfl
      · simp only [opened?, hdd, ↓reduceIte] at ho
        have hr := h.2.2.retained ho hm hg ha' hk.tail
        have hstream : stream d (⟨n, .opened d' cursor, drains, source⟩ :: past) = stream d past ++ [] := by
          simp only [stream, hdd, ↓reduceIte, List.append_nil]
        exact h.deliveredTo_cons (ih h.2.2 ho ha' hk.tail) hr.le rfl rfl hstream
    | wrote bytes =>
      have hr := h.2.2.retained ho hm hg ha' hk.tail
      exact h.deliveredTo_cons (ih h.2.2 ho ha' hk.tail) hr.le rfl rfl rfl
    | ended outcome =>
      have hr := h.2.2.retained ho hm hg ha' hk.tail
      have ih := ih h.2.2 ho ha' hk.tail
      cases outcome with
      | error cause => exact h.deliveredTo_cons ih hr.le rfl rfl (List.append_nil _).symm
      | ok report =>
        by_cases hd : drainOf n past = some d
        · obtain ⟨hcontent, position, drains', source', before, hs, hbefore⟩ :=
            h.content_of_succeeded hd ho hm hg ha' hr
          have hlen : settledLen d (⟨n, .ended (.ok report), drains, source⟩ :: past) =
              settledLen d past + report.len := by simp only [settledLen, hd, ↓reduceIte]
          have hlast : (successes d (⟨n, .ended (.ok report), drains, source⟩ :: past)).getLast? = some n := by
            simp only [successes, hd, ↓reduceIte, List.getLast?_append, List.getLast?_singleton, Option.some_or]
          have hall : delivered d (⟨n, .ended (.ok report), drains, source⟩ :: past) =
              (stream d past).take (settledLen d past + report.len) := by
            rw [h.delivered_of_succeeded hd, ih.bytes, hcontent, ← List.take_add]
          refine ⟨hall.trans (by rw [hlen]; rfl), fun _ => ⟨before, ?_, hall.trans hbefore.symm⟩⟩
          exact ⟨n, position, drains', source', hlast, hs.trans (List.suffix_cons _ past)⟩
        · refine h.deliveredTo_cons ih hr.le ?_ ?_ (List.append_nil _).symm
          · simp only [successes, hd, ↓reduceIte]
          · simp only [settledLen, hd, ↓reduceIte]
    | _ =>
      have hr := h.2.2.retained ho hm hg ha' hk.tail
      exact h.deliveredTo_cons (ih h.2.2 ho ha' hk.tail) hr.le rfl rfl (List.append_nil _).symm

/-- A transfer of a drain that is not shared does not go by a cursor that others move. -/
theorem not_loaded (h : Lawful origin past) (ho : opened? d past = some drain) (hm : drain.mode ≠ .concurrent)
    (hd : drainOf n past = some d) (cursor : Nat) : Event.loaded cursor ∉ deeds n past := by
  intro hmem
  obtain ⟨drains, source, before, -, -, -, -, hmode, -⟩ := h.moment hd ho hmem rfl
  exact hm hmode

/-- So it reads the write position once. -/
theorem sampled_once (h : Lawful origin past) (ho : opened? d past = some drain) (hm : drain.mode ≠ .concurrent)
    (hd : drainOf n past = some d) {position position' : Nat} {drains' : Array (Option Drain)} {source' : Source}
    {before' : List Entry} (hs : ⟨n, .sampled position, drains, source⟩ :: before <:+ past)
    (hs' : ⟨n, .sampled position', drains', source'⟩ :: before' <:+ past) : before = before' := by
  have hfirst : ∀ {position drains source before}, ⟨n, .sampled position, drains, source⟩ :: before <:+ past →
      ∀ position', Event.sampled position' ∉ deeds n before := by
    intro position drains source before hs position' hmem
    have hlaw := h.suffix hs
    have hd' : drainOf n (⟨n, .sampled position, drains, source⟩ :: before) = some d := by
      rw [← (h.drainOf_suffix hs (by rw [deeds_self rfl]; simp)).1, hd]
    have ho' := h.opened?_before hs hd' ho
    have hnone := fun cursor hmem' => hlaw.not_loaded ho' hm hd' cursor hmem'
    have hcourse := hlaw.course hd'
    rw [deeds_self rfl] at hcourse hnone
    exact hcourse.sampled_first hnone position' hmem
  apply eq_of_moments hs hs'
  · intro hlt
    exact hfirst hs' position (mem_deeds.mpr ⟨_, hlt.subset List.mem_cons_self, rfl, rfl, rfl⟩)
  · intro hlt
    exact hfirst hs position' (mem_deeds.mpr ⟨_, hlt.subset List.mem_cons_self, rfl, rfl, rfl⟩)

theorem lastRead_unique (h : Lawful origin past) (ho : opened? d past = some drain) (hm : drain.mode ≠ .concurrent)
    {before' : List Entry} (hread : LastRead d past before) (hread' : LastRead d past before') : before = before' := by
  obtain ⟨n, position, drains, source, hlast, hs⟩ := hread
  obtain ⟨n', position', drains', source', hlast', hs'⟩ := hread'
  obtain rfl : n = n' := Option.some.inj (hlast.symm.trans hlast')
  exact h.sampled_once ho hm (h.of_mem_successes (List.mem_of_getLast? hlast)).1 hs hs'

/-- A drain that is not shared loses nothing, in every history whose writer keeps less than a turn ahead of its cursor. -/
theorem inOrder (h : Lawful (.ring ring) past) (ho : opened? d past = some drain) (hm : drain.mode ≠ .concurrent)
    (hg : drain.geometry = ring.geometry) (ha : Abreast d past) (hk : KeptUp drain.geometry d (settledLen d) past) :
    InOrder drain d past := by
  have hdelivered := h.deliveredTo ho hm hg ha hk
  refine ⟨hdelivered.bytes, fun hne => ?_, fun before hread => ?_, fun e he own hown => ?_,
    fun n report drains source before hend hd m hm' => ?_⟩
  · obtain ⟨before, hread, -⟩ := hdelivered.read hne
    exact ⟨before, hread⟩
  · obtain ⟨before', hread', hbytes⟩ := hdelivered.read fun hnil => by
      obtain ⟨n, -, -, -, hlast, -⟩ := hread
      rw [hnil] at hlast
      cases hlast
    rw [h.lastRead_unique ho hm hread hread', hbytes]
  · rw [← (h.retained ho hm hg ha hk).settled]
    obtain ⟨rest, rfl⟩ : ∃ rest, past = e :: rest := List.head?_eq_some_iff.mp he
    rcases (place_sequential_iff ho hm).mp (h.2.1.place d) with hplace | ⟨own', hplace⟩
    · cases hown.symm.trans hplace
    · cases hown.symm.trans hplace
      rfl
  · have hlaw := h.suffix hend
    have hs := (List.suffix_cons _ before).trans hend
    have ho' := h.opened?_before hs hd ho
    have ha' := ha.suffix hs
    exact hlaw.retried hd ho' hm hg ha' (hlaw.2.2.retained ho' hm hg ha' (hk.suffix hs)) hm'

end Lawful

/-- In every session on a ring, as long as the writer keeps less than a turn ahead of the cursor of a drain that was
opened at the write position, the drain loses nothing, and a transfer that fails is made up for by the next success. The
chunks of a transfer are those that its sink is called with, and those that it accepts. -/
theorem delivered_in_order (session : Session) (hsource : session.source = .ring ring) (hs : past <:+ session.past)
    (ho : opened? d past = some drain) (hm : drain.mode ≠ .concurrent) (hg : drain.geometry = ring.geometry)
    (ha : Abreast d past) (hk : KeptUp drain.geometry d (settledLen d) past) :
    InOrder drain d past ∧
      ∀ n, drainOf n past = some d → ∀ player, (host player n).HandsAsNoted := by
  have hlaw : Lawful (.ring ring) past := hsource ▸ session.lawful.suffix hs
  exact ⟨hlaw.inOrder ho hm hg ha hk, fun n _ player => (host player n).hands_as_noted⟩

/-- A ring of eight bytes in pages of one. -/
def octet : Geometry := ⟨8, 1, by decide, by decide, by decide⟩

/-- A ring of eight bytes in which a transfer fails at its second chunk, and the next one succeeds; a byte is written
before that one reads the write position, and another one while it delivers. -/
def retrying : Session where
  geometry := octet
  source := .ring (.zeros octet)
  script := [.play 1 (.write [12]) false]
  steps := [.openDrain .sequential none none, .openSink .chunks [.fail 1 ⟨.other, "full"⟩, .play 3 (.write [13]) false],
    .write [10, 11], .transfer 0 0 none, .transfer 0 0 none]

theorem retrying_opened : opened? 0 retrying.past = some ⟨retrying.geometry, 0, .sequential (.zeros 1)⟩ := by cbv

theorem retrying_abreast : Abreast 0 retrying.past := by
  refine Throughout.of_check ?_
  cbv

theorem retrying_keptUp : KeptUp retrying.geometry 0 (settledLen 0) retrying.past := by
  refine Throughout.of_check ?_
  cbv

theorem delivered_in_order_retrying : (InOrder ⟨retrying.geometry, 0, .sequential (.zeros 1)⟩ 0 retrying.past ∧
      ∀ n, drainOf n retrying.past = some 0 → ∀ player, (host player n).HandsAsNoted) ∧
    settledLen 0 retrying.past = 3 ∧ delivered 0 retrying.past = [10, 11, 12] := by
  refine ⟨?_, by cbv, by cbv⟩
  exact delivered_in_order retrying rfl (List.suffix_refl _) retrying_opened DrainMode.noConfusion rfl retrying_abreast
    retrying_keptUp

end PagedRing.Session
