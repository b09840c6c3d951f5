import Mathlib.Data.List.Induction
import PagedRing.Proofs.Coverage
import PagedRing.Proofs.Worlds

/-!
# What a delivery does

An account of a delivery, call by call. It goes through the spans of its plan in order. For each of them it fetches the
page and then hands the bytes of the span to the sink, as the page was when it was fetched. It ends after the last span,
at the first page of the wrong length or at the first refusal, and reports how many bytes the sink has accepted by then.

* `Host.Serves`, `Host.Stops`: the spans that are accepted, and what ends a delivery after them.
* `Host.Fills`, `Host.deliver_fills`: every delivery is of that form, and its scratch holds the page that was copied last.
* `World.Leads`: calls that are answered as the world answers them then.
* `Account`: the calls of a delivery and its outcome, and `World.deliver_account`.
* `World.deliver_follows_plan`: deliveries from a source that has all of its pages.
-/

namespace PagedRing

/-! ## Spans one after the other -/

/-- The scratch after spans were copied, each from its page. -/
def Scratch.through (scratch : Scratch) (fetched : List (Span × Bytes)) : Scratch :=
  fetched.foldl (fun scratch c => c.1.store c.2 scratch) scratch

/-- A scratch after pages were copied: it holds the last of them, and if there is none, it is as before. -/
def Scratch.LeftBy (pages : List Bytes) (before after : Scratch) : Prop :=
  match pages.getLast? with
  | none => after = before
  | some page => after.bytes = page

/-- Only whole pages go through a scratch. -/
theorem Scratch.leftBy_through (scratch : Scratch) (fetched : List (Span × Bytes)) :
    LeftBy ((fetched.filter fun c => c.1.flags.fullPage).map Prod.snd) scratch (scratch.through fetched) := by
  induction fetched using List.reverseRecOn with
  | nil => exact rfl
  | append_singleton fetched c ih =>
    rw [Scratch.through, List.foldl_concat, ← Scratch.through, List.filter_append, List.filter_singleton]
    cases hfull : c.1.flags.fullPage with
    | true =>
      rw [Span.store, if_pos hfull, LeftBy, cond_true, List.map_append, List.map_singleton, List.getLast?_concat]
      exact Scratch.bytes_load _ _
    | false =>
      rw [Span.store, hfull, if_neg Bool.false_ne_true, cond_false, List.append_nil]
      exact ih

namespace Host

variable {σ : Type} (host : Host σ) (g : Geometry)

/-- Spans that the sink accepts one after the other, each with its page as it was fetched just before. -/
inductive Serves : List (Span × Bytes) → σ → σ → Prop
  | nil (s : σ) : Serves [] s s
  | cons {span : Span} {page : Bytes} {served : List (Span × Bytes)} {s s₁ s₂ t : σ}
      (fetch : host.fetch span.page s = (.ok page, s₁)) (length : page.length = g.pageSize)
      (accept : host.accept (span.cut page) (host.note (.offered span (span.cut page)) s₁) = (.ok (), s₂))
      (rest : Serves served (host.note (.accepted span (span.cut page)) s₂) t) : Serves ((span, page) :: served) s t

/-- What ends a delivery when these spans are left, with its outcome. A page that was fetched for a span which is then
refused is told as well. -/
inductive Stops (done : Transfer) (delivered : Nat) :
    List Span → List (Span × Bytes) → Except Halt Transfer → σ → σ → Prop
  | whole (s : σ) : Stops done delivered [] [] (.ok done) s (host.note (.delivered done) s)
  | faulted {span : Span} {rest : List Span} {fault : Fault} {s t : σ}
      (fetch : host.fetch span.page s = (.error fault, t)) :
      Stops done delivered (span :: rest) [] (.error (.fault fault)) s t
  | malformed {span : Span} {rest : List Span} {page : Bytes} {s t : σ}
      (fetch : host.fetch span.page s = (.ok page, t)) (length : page.length ≠ g.pageSize) :
      Stops done delivered (span :: rest) []
        (.error (.error (.pageSize span.page g.pageSize page.length delivered))) s t
  | refused {span : Span} {rest : List Span} {page : Bytes} {cause : SinkError} {s s₁ t : σ}
      (fetch : host.fetch span.page s = (.ok page, s₁)) (length : page.length = g.pageSize)
      (accept : host.accept (span.cut page) (host.note (.offered span (span.cut page)) s₁) = (.error cause, t)) :
      Stops done delivered (span :: rest) [(span, page)]
        (.error (.error (.sink done.start done.stop delivered cause))) s
        (host.note (.refused done.start done.stop delivered done.len cause) t)

variable {host g}

/-- A span is accepted, or the delivery ends there. -/
theorem handOut_cases (plan : Plan) (done : Transfer) (delivered : Nat) (scratch : Scratch) (s : σ) :
    (∃ page s₁ s₂, host.fetch plan.head.page s = (.ok page, s₁) ∧ page.length = plan.geometry.pageSize ∧
      host.accept (plan.head.cut page) (host.note (.offered plan.head (plan.head.cut page)) s₁) = (.ok (), s₂) ∧
      host.handOut plan.geometry done delivered plan.head scratch s =
        (.ok (), plan.head.store page scratch, host.note (.accepted plan.head (plan.head.cut page)) s₂)) ∨
    ∃ halt fetched t, host.handOut plan.geometry done delivered plan.head scratch s =
        (.error halt, scratch.through fetched, t) ∧
      ∀ rest, host.Stops plan.geometry done delivered (plan.head :: rest) fetched (.error halt) s t := by
  unfold Host.handOut
  rcases hfetch : host.fetch plan.head.page s with ⟨fault | page, s₁⟩
  · exact .inr ⟨_, [], _, rfl, fun _ => .faulted hfetch⟩
  · by_cases hlength : page.length = plan.geometry.pageSize
    · simp only [hlength, ↓reduceIte, Plan.copyFrom_eq plan hlength scratch]
      rcases haccept : host.accept (plan.head.cut page)
        (host.note (.offered plan.head (plan.head.cut page)) s₁) with ⟨cause | ⟨⟨⟩⟩, s₂⟩
      · exact .inr ⟨_, [(plan.head, page)], _, rfl, fun _ => .refused hfetch hlength haccept⟩
      · exact .inl ⟨page, s₁, s₂, rfl, hlength, haccept, rfl⟩
    · simp only [hlength, ↓reduceIte]
      exact .inr ⟨_, [], _, rfl, fun _ => .malformed hfetch hlength⟩

variable (host) in
/-- A delivery serves the first of the spans that are left, until something ends it. -/
theorem deliverRest_serves {plan : Plan} {spans : List Span} {done : Transfer} (h : plan.Fits)
    (hspans : plan.spans = .ok spans) (hchunks : done.chunks ≤ plan.planned) (scratch : Scratch) (s : σ) :
    ∃ served rest fetched mid, served.map Prod.fst ++ rest = spans ∧ host.Serves plan.geometry served s mid ∧
      host.Stops plan.geometry { done with chunks := done.chunks + served.length }
        (plan.planned + (served.map fun c => c.1.len).sum) rest fetched
        (host.deliverRest plan done plan.planned scratch s).1 mid
        (host.deliverRest plan done plan.planned scratch s).2.2 ∧
      (host.deliverRest plan done plan.planned scratch s).2.1 = scratch.through (served ++ fetched) := by
  induction h using Plan.Fits.induction generalizing done spans scratch s with
  | stop plan h hend =>
    rw [host.deliverRest_of_end h hend]
    obtain rfl : spans = [] := Except.ok.inj (hspans.symm.trans (Plan.spans_of_end h hend))
    exact ⟨[], [], [], s, rfl, .nil s, .whole s, rfl⟩
  | span plan h hlt ih =>
    obtain ⟨more, hmore⟩ := Plan.exists_spans h.skip
    obtain rfl : spans = plan.head :: more := by
      rw [Plan.spans_of_lt h hlt, hmore] at hspans
      exact (Except.ok.inj hspans).symm
    rw [host.deliverRest_of_lt h hlt hchunks]
    rcases handOut_cases plan done plan.planned scratch s with
      ⟨page, s₁, s₂, hfetch, hlength, haccept, heq⟩ | ⟨halt, fetched, t, heq, hstops⟩
    · rw [heq]
      have hstep := Plan.step_pos hlt
      have hcount : ({ done with chunks := done.chunks + 1 } : Transfer).chunks ≤ plan.skip.planned := by
        simp only [Plan.skip]
        omega
      obtain ⟨served, rest, fetched, mid, hsplit, hserves, hstops, hscratch⟩ :=
        ih hmore hcount (plan.head.store page scratch)
          (host.note (.accepted plan.head (plan.head.cut page)) s₂)
      refine ⟨(plan.head, page) :: served, rest, fetched, mid, congrArg (plan.head :: ·) hsplit,
        .cons hfetch hlength haccept hserves, ?_, hscratch⟩
      have hchunks' : done.chunks + ((plan.head, page) :: served).length = done.chunks + 1 + served.length := by
        rw [List.length_cons]
        omega
      have hdelivered : plan.planned + (((plan.head, page) :: served).map fun c => c.1.len).sum =
          plan.skip.planned + (served.map fun c => c.1.len).sum := by
        rw [List.map_cons, List.sum_cons, ← Nat.add_assoc]
        rfl
      rw [hchunks', hdelivered]
      exact hstops
    · rw [heq]
      exact ⟨[], plan.head :: more, fetched, s, rfl, .nil s, hstops more, rfl⟩

/-- What a delivery of `len` bytes from `start` does with its scratch. The spans `served` are accepted, each with the page
that was fetched just before, and `tried` is what was copied for a span that was then refused. -/
structure Fills (host : Host σ) (g : Geometry) (start len : Nat) (scratch : Scratch) (s : σ)
    (served tried : List (Span × Bytes)) (result : Except Halt Transfer × Scratch × σ) : Prop where
  /-- The chunks are cut from the pages as they were when they were fetched, up to what ends the delivery. -/
  chunks : ∃ plan rest mid, Plan.ofRange g start len = .ok plan ∧ plan.spans = .ok (served.map Prod.fst ++ rest) ∧
    host.Serves g served (host.note (.planned plan) s) mid ∧
    host.Stops g ⟨start, (start + len) % g.capacity, len, served.length⟩ (served.map fun c => c.1.len).sum rest tried
      result.1 mid result.2.2
  /-- All pages that were copied have the length of a page. -/
  length : ∀ c ∈ served ++ tried, c.2.length = g.pageSize
  /-- The scratch holds the page of the last whole one; if there is none, it is as before. -/
  scratch : Scratch.LeftBy (((served ++ tried).filter fun c => c.1.flags.fullPage).map Prod.snd) scratch result.2.1

theorem Serves.length {served : List (Span × Bytes)} {s t : σ} (h : host.Serves g served s t) :
    ∀ c ∈ served, c.2.length = g.pageSize := by
  induction h with
  | nil => exact nofun
  | cons _ length _ _ ih => exact List.forall_mem_cons.mpr ⟨length, ih⟩

theorem Stops.length {done : Transfer} {delivered : Nat} {rest : List Span} {tried : List (Span × Bytes)}
    {outcome : Except Halt Transfer} {s t : σ} (h : host.Stops g done delivered rest tried outcome s t) :
    ∀ c ∈ tried, c.2.length = g.pageSize := by
  cases h with
  | refused _ length _ => exact List.forall_mem_singleton.mpr length
  | whole | faulted | malformed => exact nofun

variable (host) in
/-- Every delivery of a range that lies in the ring fills its scratch like that. -/
theorem deliver_fills {start len : Nat} (hstart : start < g.capacity) (hlen : len ≤ g.capacity) (scratch : Scratch)
    (s : σ) : ∃ served tried, Fills host g start len scratch s served tried (host.deliver g start len scratch s) := by
  obtain ⟨hplan, hfits⟩ := Plan.fits_of_range hstart hlen
  obtain ⟨spans, hspans⟩ := Plan.exists_spans hfits
  rw [host.deliver_of_fits hstart hlen (g.advance_of_le (Nat.le_of_lt hstart) len)]
  have hchunks : Transfer.chunks ⟨start, (start + len) % g.capacity, len, 0⟩ ≤ 0 := Nat.le_refl 0
  obtain ⟨served, rest, tried, mid, rfl, hserves, hstops, hscratch⟩ :=
    host.deliverRest_serves hfits hspans hchunks scratch (host.note (.planned ⟨g, start, len, 0⟩) s)
  rw [Nat.zero_add, Nat.zero_add] at hstops
  refine ⟨served, tried, ⟨_, rest, mid, hplan, hspans, hserves, hstops⟩, ?_, ?_⟩
  · intro c hc
    rcases List.mem_append.mp hc with hc | hc
    · exact hserves.length c hc
    · exact hstops.length c hc
  · exact hscratch ▸ Scratch.leftBy_through scratch (served ++ tried)

end Host

/-! ## Calls -/

/-- The page that a call fetched. -/
def Call.fetched? : Call → Option Bytes
  | .fetch _ (.ok page) => some page
  | _ => none

/-- The chunk that a call made the sink accept. -/
def Call.accepted? : Call → Option Bytes
  | .accept bytes (.ok ()) => some bytes
  | _ => none

/-- The chunks that the sink accepted, in order. -/
def accepted (calls : List Call) : List Bytes := calls.filterMap Call.accepted?

/-- The whole pages that were copied for these spans: those that were fetched with the right length for a span that
covers its page. The first page that was fetched is that of the first span, and so on. -/
def copied (g : Geometry) (spans : List Span) (calls : List Call) : List Bytes :=
  ((spans.zip (calls.filterMap Call.fetched?)).filter fun c =>
    c.1.flags.fullPage && c.2.length == g.pageSize).map Prod.snd

/-- The calls for spans that are accepted, each given with its page: the page is fetched, and then the bytes of the span
are handed to the sink. -/
def servings (served : List (Span × Bytes)) : List Call :=
  served.flatMap fun c => [.fetch c.1.page (.ok c.2), .accept (c.1.cut c.2) (.ok ())]

@[simp] theorem accepted_append (a b : List Call) : accepted (a ++ b) = accepted a ++ accepted b :=
  List.filterMap_append

@[simp] theorem accepted_servings (served : List (Span × Bytes)) :
    accepted (servings served) = served.map fun c => c.1.cut c.2 := by
  induction served with
  | nil => rfl
  | cons c served ih =>
    rw [List.map_cons, ← ih]
    rfl

theorem fetched_servings (served : List (Span × Bytes)) :
    (servings served).filterMap Call.fetched? = served.map Prod.snd := by
  induction served with
  | nil => rfl
  | cons c served ih =>
    rw [List.map_cons, ← ih]
    rfl

/-- What a delivery of these spans does, and its outcome. Each page is fetched just before its span is handed to the
sink. Before the calls in which the delivery ends, all pages have the right length and the sink accepts all chunks. -/
inductive Account (g : Geometry) (start stop len : Nat) (spans : List Span) :
    List Call → Except Halt Transfer → Prop
  /-- The sink accepts every span. -/
  | whole (served : List (Span × Bytes)) (split : served.map Prod.fst = spans)
      (length : ∀ c ∈ served, c.2.length = g.pageSize) :
      Account g start stop len spans (servings served) (.ok ⟨start, stop, len, spans.length⟩)
  /-- A page has the wrong length, and its span is not handed out. -/
  | malformed (served : List (Span × Bytes)) (span : Span) (rest : List Span) (page : Bytes)
      (split : served.map Prod.fst ++ span :: rest = spans) (length : ∀ c ∈ served, c.2.length = g.pageSize)
      (wrong : page.length ≠ g.pageSize) :
      Account g start stop len spans (servings served ++ [.fetch span.page (.ok page)])
        (.error (.error (.pageSize span.page g.pageSize page.length (served.map fun c => c.1.len).sum)))
  /-- The sink refuses a span. -/
  | refused (served : List (Span × Bytes)) (span : Span) (rest : List Span) (page : Bytes) (cause : SinkError)
      (split : served.map Prod.fst ++ span :: rest = spans) (length : ∀ c ∈ served, c.2.length = g.pageSize)
      (right : page.length = g.pageSize) :
      Account g start stop len spans
        (servings served ++ [.fetch span.page (.ok page), .accept (span.cut page) (.error cause)])
        (.error (.error (.sink start stop (served.map fun c => c.1.len).sum cause)))
  /-- A page cannot be fetched. -/
  | faulted (served : List (Span × Bytes)) (span : Span) (rest : List Span) (fault : Fault)
      (split : served.map Prod.fst ++ span :: rest = spans) (length : ∀ c ∈ served, c.2.length = g.pageSize) :
      Account g start stop len spans (servings served ++ [.fetch span.page (.error fault)]) (.error (.fault fault))

namespace World

variable {σ : Type} (w : World σ)

/-- Calls that lead from one state of a world to another, each answered as the world answers it then. -/
inductive Leads : σ → List Call → σ → Prop
  | nil (world : σ) : Leads world [] world
  | position {world last : σ} {calls : List Call} (rest : Leads (w.position world).2 calls last) :
      Leads world (.position (w.position world).1 :: calls) last
  | fetch {world last : σ} {calls : List Call} (page : Nat) (rest : Leads (w.fetch page world).2 calls last) :
      Leads world (.fetch page (w.fetch page world).1 :: calls) last
  | accept {world last : σ} {calls : List Call} (bytes : Bytes) (rest : Leads (w.accept bytes world).2 calls last) :
      Leads world (.accept bytes (w.accept bytes world).1 :: calls) last

variable {w} {g : Geometry}

theorem Leads.append {world mid last : σ} {a b : List Call} (ha : w.Leads world a mid) (hb : w.Leads mid b last) :
    w.Leads world (a ++ b) last := by
  induction ha with
  | nil => exact hb
  | position _ ih => exact .position (ih hb)
  | fetch page _ ih => exact .fetch page (ih hb)
  | accept bytes _ ih => exact .accept bytes (ih hb)

/-- A stage that calls lead to from another one. -/
structure Reaches (w : World σ) (s : Stage σ) (calls : List Call) (t : Stage σ) : Prop where
  /-- The calls were made, and no others. -/
  made : t.calls = s.calls ++ calls
  /-- They were answered as the world answered them. -/
  leads : w.Leads s.world calls t.world
  /-- The shared cursor is where it was. -/
  cursor : t.cursor = s.cursor

theorem Reaches.append {s t r : Stage σ} {a b : List Call} (ha : w.Reaches s a t) (hb : w.Reaches t b r) :
    w.Reaches s (a ++ b) r :=
  ⟨by rw [hb.made, ha.made, List.append_assoc], ha.leads.append hb.leads, hb.cursor.trans ha.cursor⟩

theorem reaches_fetch {s t : Stage σ} {page : Nat} {answer : Except Fault Bytes}
    (h : w.host.fetch page s = (answer, t)) : w.Reaches s [.fetch page answer] t := by
  cases h
  exact ⟨rfl, .fetch page (.nil _), rfl⟩

theorem reaches_accept {s t : Stage σ} {bytes : Bytes} {answer : Except SinkError Unit}
    (h : w.host.accept bytes s = (answer, t)) : w.Reaches s [.accept bytes answer] t := by
  cases h
  exact ⟨rfl, .accept bytes (.nil _), rfl⟩

theorem reaches_of_serves {served : List (Span × Bytes)} {s t : Stage σ} (h : w.host.Serves g served s t) :
    w.Reaches s (servings served) t := by
  induction h with
  | nil s => exact ⟨(List.append_nil _).symm, .nil _, rfl⟩
  | cons fetch length accept rest ih => exact ((reaches_fetch fetch).append (reaches_accept accept)).append ih

/-! ## The account of a delivery -/

/-- Of pages of the right length, those for whole pages are copied. -/
theorem filter_copied {fetched : List (Span × Bytes)} (h : ∀ c ∈ fetched, c.2.length = g.pageSize) :
    (fetched.filter fun c => c.1.flags.fullPage && c.2.length == g.pageSize) =
      fetched.filter fun c => c.1.flags.fullPage := by
  refine List.filter_congr fun c hc => ?_
  rw [h c hc, beq_self_eq_true, Bool.and_true]

theorem copied_servings {served : List (Span × Bytes)} (h : ∀ c ∈ served, c.2.length = g.pageSize) (rest : List Span)
    (calls : List Call) : copied g (served.map Prod.fst ++ rest) (servings served ++ calls) =
      ((served.filter fun c => c.1.flags.fullPage).map Prod.snd) ++ copied g rest calls := by
  have hzip : (served.map Prod.fst).zip (served.map Prod.snd) = served := (List.zip_of_prod rfl rfl).symm
  rw [copied, List.filterMap_append, fetched_servings, List.zip_append (by simp), hzip, List.filter_append,
    filter_copied h, List.map_append]
  rfl

/-- A delivery that serves some spans and then stops goes as an account tells. -/
theorem account_of_stops {served fetched : List (Span × Bytes)} {rest : List Span} {outcome : Except Halt Transfer}
    {s mid t : Stage σ} {start stop len : Nat} (hserves : w.host.Serves g served s mid)
    (hstops : w.host.Stops g ⟨start, stop, len, served.length⟩ (served.map fun c => c.1.len).sum rest fetched outcome
      mid t) :
    ∃ calls, w.Reaches s calls t ∧ Account g start stop len (served.map Prod.fst ++ rest) calls outcome ∧
      copied g (served.map Prod.fst ++ rest) calls =
        ((served ++ fetched).filter fun c => c.1.flags.fullPage).map Prod.snd := by
  have hreaches := reaches_of_serves hserves
  have hlength := hserves.length
  cases hstops with
  | whole =>
    refine ⟨servings served, hreaches, ?_, ?_⟩
    · have hchunks : (served.map Prod.fst ++ []).length = served.length := by simp
      rw [← hchunks]
      exact .whole served (List.append_nil _).symm hlength
    · rw [← List.append_nil (servings served), copied_servings hlength, List.filter_append, List.map_append]
      rfl
  | faulted fetch =>
    refine ⟨_, hreaches.append (reaches_fetch fetch), .faulted served _ _ _ rfl hlength, ?_⟩
    rw [copied_servings hlength, List.append_nil]
    simp [copied, Call.fetched?, List.filterMap_cons]
  | malformed fetch length =>
    refine ⟨_, hreaches.append (reaches_fetch fetch), .malformed served _ _ _ rfl hlength length, ?_⟩
    rw [copied_servings hlength, List.append_nil]
    simp [copied, Call.fetched?, length]
  | @refused span rest page _ _ _ _ fetch length accept =>
    refine ⟨_, hreaches.append ((reaches_fetch fetch).append (reaches_accept accept)),
      .refused served _ _ _ _ rfl hlength length, ?_⟩
    have hzip : (span :: rest).zip [page] = [(span, page)] := by simp
    rw [List.singleton_append, copied_servings hlength, List.filter_append, List.map_append]
    show _ ++ (((span :: rest).zip [page]).filter _).map Prod.snd = _
    rw [hzip, filter_copied (List.forall_mem_singleton.mpr length)]

/-- What a delivery of `len` bytes from `start` does: it has these spans, makes these calls and has this result. -/
structure Delivers (w : World σ) (g : Geometry) (start len : Nat) (scratch : Scratch) (s : Stage σ)
    (spans : List Span) (calls : List Call) (result : Except Halt Transfer × Scratch × Stage σ) : Prop where
  /-- The spans are those of the plan. -/
  spans_eq : ∃ plan, Plan.ofRange g start len = .ok plan ∧ plan.spans = .ok spans
  /-- The calls are made one after the other, and no others. -/
  reaches : w.Reaches s calls result.2.2
  /-- They are those for the spans, up to the outcome. -/
  account : Account g start ((start + len) % g.capacity) len spans calls result.1
  /-- The scratch holds the whole page that was copied last. -/
  scratch : Scratch.LeftBy (copied g spans calls) scratch result.2.1

/-- Every delivery of a range that lies in the ring goes as its account tells. -/
theorem deliver_account (w : World σ) {start len : Nat} (hstart : start < g.capacity) (hlen : len ≤ g.capacity)
    (scratch : Scratch) (s : Stage σ) :
    ∃ spans calls, Delivers w g start len scratch s spans calls (w.host.deliver g start len scratch s) := by
  obtain ⟨served, wholes, ⟨plan, rest, mid, hplan, hspans, hserves, hstops⟩, -, hscratch⟩ :=
    w.host.deliver_fills hstart hlen scratch s
  obtain ⟨calls, hreaches, haccount, hcopied⟩ := account_of_stops hserves hstops
  refine ⟨_, calls, ⟨plan, hplan, hspans⟩, hreaches, haccount, ?_⟩
  rw [hcopied]
  exact hscratch

/-! ## What a delivery reports -/

/-- The number of bytes that an outcome reports as delivered; there is none if a computation had no answer. -/
def reported : Except Halt Transfer → Option Nat
  | .ok report => some report.len
  | .error (.error cause) => some cause.delivered
  | .error (.fault _) | .error .unfinished => none

theorem length_accepted {served : List (Span × Bytes)} (h : ∀ c ∈ served, (c.1.cut c.2).length = c.1.len) :
    ((accepted (servings served)).map List.length).sum = (served.map fun c => c.1.len).sum := by
  rw [accepted_servings, List.map_map]
  exact congrArg List.sum (List.map_congr_left h)

/-- A delivery reports the bytes that the sink accepted, unless a page could not be fetched. -/
theorem reported_of_account {plan : Plan} {spans : List Span} {calls : List Call} {start stop len : Nat}
    {outcome : Except Halt Transfer} (hcover : Plan.Cover g start len plan spans)
    (h : Account g start stop len spans calls outcome) :
    reported outcome = some ((accepted calls).map List.length).sum ∨
      ∃ number fault, number < g.pageCount ∧ .fetch number (.error fault) ∈ calls := by
  have hcut : ∀ served : List (Span × Bytes), served.map Prod.fst ⊆ spans →
      (∀ c ∈ served, c.2.length = g.pageSize) → ∀ c ∈ served, (c.1.cut c.2).length = c.1.len := by
    intro served hsub hlength c hc
    obtain ⟨before, after, htile⟩ := hcover.tile_of_mem (hsub (List.mem_map_of_mem hc))
    have hinside := htile.inside
    rw [Span.cut, List.length_take, List.length_drop, hlength c hc]
    omega
  cases h with
  | whole served split length =>
    subst split
    rw [length_accepted (hcut served (List.Subset.refl _) length)]
    have hsum := hcover.sum_len
    rw [List.map_map] at hsum
    exact .inl (congrArg some hsum.symm)
  | malformed served span rest page split length wrong =>
    subst split
    rw [accepted_append, List.map_append, List.sum_append,
      length_accepted (hcut served (List.subset_append_left _ _) length)]
    exact .inl rfl
  | refused served span rest page cause split length right =>
    subst split
    rw [accepted_append, List.map_append, List.sum_append,
      length_accepted (hcut served (List.subset_append_left _ _) length)]
    exact .inl rfl
  | faulted served span rest fault split length =>
    subst split
    obtain ⟨before, after, htile⟩ := hcover.tile_of_mem (List.mem_append_right _ (List.mem_cons_self ..))
    exact .inr ⟨span.page, fault, htile.page_lt, List.mem_append_right _ (List.mem_singleton_self _)⟩

/-- A call is answered as the world answers it in some state. -/
def Answers (w : World σ) : Call → Prop
  | .position answer => ∃ world, (w.position world).1 = answer
  | .fetch number answer => ∃ world, (w.fetch number world).1 = answer
  | .accept bytes answer => ∃ world, (w.accept bytes world).1 = answer

theorem Leads.answers {world last : σ} {calls : List Call} (h : w.Leads world calls last) :
    ∀ call ∈ calls, w.Answers call := by
  induction h with
  | nil => exact nofun
  | @position world _ _ _ ih => exact List.forall_mem_cons.mpr ⟨⟨world, rfl⟩, ih⟩
  | @fetch world _ _ _ _ ih => exact List.forall_mem_cons.mpr ⟨⟨world, rfl⟩, ih⟩
  | @accept world _ _ _ _ ih => exact List.forall_mem_cons.mpr ⟨⟨world, rfl⟩, ih⟩

/-- What a delivery does, whatever its bounds are. -/
structure Follows (w : World σ) (g : Geometry) (start len : Nat) (scratch : Scratch) (s : Stage σ)
    (result : Except Halt Transfer × Scratch × Stage σ) : Prop where
  /-- A range that starts outside the ring is refused; there are no calls, and the scratch is as before. -/
  outside : g.capacity ≤ start → result = (.error (.error (.positionOutOfRange start g.capacity)), scratch, s)
  /-- So is one that is longer than the ring. -/
  tooLong : start < g.capacity → g.capacity < len →
    result = (.error (.error (.rangeTooLong len g.capacity)), scratch, s)
  /-- Any other range is delivered by its plan. -/
  delivers : start < g.capacity → len ≤ g.capacity → ∃ spans calls, Delivers w g start len scratch s spans calls result
  /-- It ends without a fault and reports as many bytes as the sink accepted. -/
  reports : ∃ calls, w.Reaches s calls result.2.2 ∧ reported result.1 = some ((accepted calls).map List.length).sum

/-- A delivery from a source that has all of its pages goes by its plan, up to the first page of the wrong length or the
first refusal; the pages may have any length and may change at every call. -/
theorem deliver_follows_plan (w : World σ) (g : Geometry)
    (hfetch : ∀ number < g.pageCount, ∀ world, ∃ page, (w.fetch number world).1 = .ok page) (start len : Nat)
    (scratch : Scratch) (s : Stage σ) :
    Follows w g start len scratch s (w.host.deliver g start len scratch s) := by
  have hidle : w.Reaches s [] s := ⟨(List.append_nil _).symm, .nil _, rfl⟩
  rcases Nat.lt_or_ge start g.capacity with hstart | hstart
  · rcases Nat.lt_or_ge g.capacity len with hlen | hlen
    · rw [w.host.deliver_of_tooLong hstart hlen]
      exact ⟨fun hout => absurd hstart (Nat.not_lt.mpr hout), fun _ _ => rfl,
        fun _ hle => absurd hlen (Nat.not_lt.mpr hle), [], hidle, rfl⟩
    · obtain ⟨spans, calls, hdelivers⟩ := w.deliver_account hstart hlen scratch s
      refine ⟨fun hout => absurd hstart (Nat.not_lt.mpr hout), fun _ hlt => absurd hlt (Nat.not_lt.mpr hlen),
        fun _ _ => ⟨spans, calls, hdelivers⟩, calls, hdelivers.reaches, ?_⟩
      obtain ⟨plan, hplan, hspans⟩ := hdelivers.spans_eq
      cases hplan.symm.trans (Plan.fits_of_range hstart hlen).1
      rcases reported_of_account (Plan.cover_of_spans hstart hlen hspans) hdelivers.account with
        hreported | ⟨number, fault, hnumber, hmem⟩
      · exact hreported
      · obtain ⟨mid, hmid⟩ := hdelivers.reaches.leads.answers _ hmem
        obtain ⟨page, hpage⟩ := hfetch number hnumber mid
        rw [hpage] at hmid
        cases hmid
  · rw [w.host.deliver_of_outside hstart]
    exact ⟨fun _ => rfl, fun hin => absurd hin (Nat.not_lt.mpr hstart), fun hin => absurd hin (Nat.not_lt.mpr hstart),
      [], hidle, rfl⟩

/-- Three pages of three bytes each. -/
def threePages : Geometry := ⟨9, 3, by decide, by decide, by decide⟩

/-- A source of pages, and a sink that moves the first page to the end at each chunk. -/
def turning : World (List Bytes) where
  position pages := (0, pages)
  fetch page pages := (.ok (pages.getD page []), pages)
  accept _ pages := (.ok (), pages.tail ++ pages.take 1)

/-- The whole ring from the middle of its second page on; the third page that is fetched is too short. -/
theorem deliver_follows_plan_turning :
    (∀ number < threePages.pageCount, ∀ pages, ∃ page, (turning.fetch number pages).1 = .ok page) ∧
    Follows turning threePages 4 9 .empty (.start [[0, 1, 2], [3, 4, 5], [6, 7]] 0)
      (turning.host.deliver threePages 4 9 .empty (.start [[0, 1, 2], [3, 4, 5], [6, 7]] 0)) ∧
    (turning.host.deliver threePages 4 9 .empty (.start [[0, 1, 2], [3, 4, 5], [6, 7]] 0)).1 =
      .error (.error (.pageSize 0 3 2 5)) ∧
    accepted (turning.host.deliver threePages 4 9 .empty (.start [[0, 1, 2], [3, 4, 5], [6, 7]] 0)).2.2.calls =
      [[4, 5], [0, 1, 2]] := by
  have hfetch : ∀ number < threePages.pageCount, ∀ pages, ∃ page, (turning.fetch number pages).1 = .ok page :=
    fun number _ pages => ⟨pages.getD number [], rfl⟩
  refine ⟨hfetch, ?_, by decide +kernel, by decide +kernel⟩
  exact deliver_follows_plan turning threePages hfetch 4 9 .empty (.start [[0, 1, 2], [3, 4, 5], [6, 7]] 0)

end World

end PagedRing
