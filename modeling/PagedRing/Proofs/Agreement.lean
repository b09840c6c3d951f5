import Mathlib
import PagedRing.Drain.Sequential
import PagedRing.Proofs.Account
import PagedRing.Proofs.Alike
import PagedRing.Source

/-!
# The two drains compared

A transfer of a sequential drain and one of a concurrent drain that start from the same cursor, in the same world, ask
the same of that world and have the same outcome, as long as the world does not enter the drain again. What differs is
the cursor that a delivery that ends early leaves behind.

* `World.deliver_moved`: neither the scratch nor the cursor matters to a delivery.
* `World.deliver_ends`: how a delivery of a range that fits may end.
* `drains_agree`: both transfers side by side.
-/

namespace PagedRing

namespace World

variable {σ : Type} (w : World σ) (g : Geometry)

/-! ## What does not matter to a delivery -/

theorem alike_moved (cursor : Nat) : w.host.Alike w.host fun s t => t = s.moved cursor where
  position h := h ▸ ⟨rfl, rfl⟩
  fetch _ h := h ▸ ⟨rfl, rfl⟩
  accept _ h := h ▸ ⟨rfl, rfl⟩
  note _ _ h := h

/-- Neither the scratch nor the cursor matters to a delivery. -/
theorem deliver_moved (start len : Nat) (scratch scratch' : Scratch) (s : Stage σ) (cursor : Nat) :
    ∃ kept, w.host.deliver g start len scratch' (s.moved cursor) =
      ((w.host.deliver g start len scratch s).1, kept, (w.host.deliver g start len scratch s).2.2.moved cursor) := by
  obtain ⟨houtcome, hstage, -⟩ := (w.alike_moved cursor).deliver g start len scratch scratch' (s := s) rfl
  exact ⟨_, Prod.ext houtcome (Prod.ext rfl hstage)⟩

/-! ## How a delivery ends -/

/-- What a delivery that ends early was told last: the sink refused a chunk, a page had the wrong length, or there was
no such page. -/
def Broken (g : Geometry) (calls : List Call) : Halt → Prop
  | .error (.sink _ _ _ cause) => ∃ before bytes, calls = before ++ [.accept bytes (.error cause)]
  | .error (.pageSize page expected actual _) => ∃ before bytes, calls = before ++ [.fetch page (.ok bytes)] ∧
      expected = g.pageSize ∧ actual = bytes.length ∧ actual ≠ expected
  | .fault cause => ∃ before page, calls = before ++ [.fetch page (.error cause)]
  | .error (.positionOutOfRange _ _) | .error (.rangeTooLong _ _) | .unfinished => False

/-- A range that starts in the ring and ends at a position of the ring is delivered up to there, or there is a cause
not to. -/
theorem deliver_ends {start stop len : Nat} (hstart : start < g.capacity) (hstop : stop < g.capacity)
    (hlen : g.unreadLen start stop = .ok len) (scratch : Scratch) (s : Stage σ) :
    (w.host.deliver g start len scratch s).2.2.cursor = s.cursor ∧
      match (w.host.deliver g start len scratch s).1 with
      | .ok report => report.start = start ∧ report.stop = stop ∧ report.len = len
      | .error halt => Broken g (w.host.deliver g start len scratch s).2.2.calls halt := by
  obtain ⟨hadv, hlt⟩ := g.advance_unreadLen hstart hstop hlen
  rw [g.advance_of_le (Nat.le_of_lt hstart)] at hadv
  obtain rfl : (start + len) % g.capacity = stop := Except.ok.inj hadv
  obtain ⟨spans, calls, -, hreaches, haccount, -⟩ := w.deliver_account hstart (Nat.le_of_lt hlt) scratch s
  refine ⟨hreaches.cursor, ?_⟩
  rw [hreaches.made]
  generalize (w.host.deliver g start len scratch s).1 = outcome at haccount ⊢
  cases haccount with
  | whole => exact ⟨rfl, rfl, rfl⟩
  | malformed served span rest page split length wrong =>
    rw [← List.append_assoc]
    exact ⟨_, page, rfl, rfl, rfl, wrong⟩
  | refused served span rest page cause split length right =>
    rw [List.append_cons, ← List.append_assoc, ← List.append_assoc]
    exact ⟨_, _, rfl⟩
  | faulted served span rest fault split length =>
    rw [← List.append_assoc]
    exact ⟨_, _, rfl⟩

end World

/-! ## Both drains -/

/-- How a transfer of a sequential drain and one of a concurrent drain compare that have read the same write position,
both from the same cursor: the results of the first are its outcome, its cursor, its scratch and its stage, and those of
the second are its outcome, its scratch and its stage, where its cursor stands. -/
structure Agreement {σ : Type} (g : Geometry) (cursor position : Nat)
    (own : Except Halt Transfer × Nat × Scratch × Stage σ) (shared : Except Halt Transfer × Scratch × Stage σ) :
    Prop where
  /-- They make the same calls, with the same answers, in the same order. -/
  calls : shared.2.2.calls = own.2.2.2.calls
  /-- They leave the same world. -/
  world : shared.2.2.world = own.2.2.2.world
  /-- They have the same outcome. -/
  outcome : shared.1 = own.1
  /-- Their cursors agree after a success and after a write position outside the ring. After a delivery that ended
  early they do not: the one is where it was, and the other at the write position. -/
  cursors : (∃ report, own.1 = .ok report ∧ report.stop = position ∧ own.2.1 = position ∧
      shared.2.2.cursor = position) ∨
    (own.1 = .error (.error (.positionOutOfRange position g.capacity)) ∧ g.capacity ≤ position ∧
      own.2.2.2.calls = [.position position] ∧ own.2.1 = cursor ∧ shared.2.2.cursor = cursor) ∨
    ∃ halt, own.1 = .error halt ∧ World.Broken g own.2.2.2.calls halt ∧ own.2.1 = cursor ∧
      shared.2.2.cursor = position

/-- In every world that does not enter the drain again, a transfer of a sequential drain and one of a concurrent drain
from the same cursor agree but for the cursor after a delivery that ended early, whatever their scratches hold. -/
theorem drains_agree {σ : Type} (w : World σ) (g : Geometry) {cursor : Nat} (hcursor : cursor < g.capacity)
    (attempts : Nat) (own given : Scratch) (world : σ) :
    Agreement g cursor (w.position world).1 (Sequential.transfer w.host g cursor own (.start world cursor))
      (Concurrent.transfer w.host Stage.cell g (attempts + 1) given (.start world cursor)) := by
  have hread : w.host.readPosition g (.start world cursor) =
      (if g.contains (w.position world).1 then .ok (w.position world).1
        else .error (.error (.positionOutOfRange (w.position world).1 g.capacity)),
        ⟨(w.position world).2, cursor, [.position (w.position world).1]⟩) := rfl
  unfold Sequential.transfer Concurrent.transfer Concurrent.claim
  simp only [World.host_note, hread]
  generalize w.position world = read
  obtain ⟨position, world'⟩ := read
  dsimp only
  by_cases hcontains : g.contains position = true
  · simp only [hcontains, ↓reduceIte]
    have hposition := g.contains_iff.mp hcontains
    by_cases hunread : hasUnread cursor position = true
    · obtain ⟨len, hlen⟩ : ∃ len, g.unreadLen cursor position = .ok len :=
        ⟨_, g.unreadLen_of_le (Nat.le_of_lt hcursor)⟩
      obtain ⟨hkept, hends⟩ := w.deliver_ends g hcursor hposition hlen own ⟨world', cursor, [.position position]⟩
      obtain ⟨scratch, hmoved⟩ :=
        w.deliver_moved g cursor len own given ⟨world', cursor, [.position position]⟩ position
      -- nobody has moved the cursor since it was read, so the claim is won
      simp only [Stage.start, Stage.load_cell, Stage.store_cell, hunread, hlen, hmoved, ↓reduceIte]
      generalize w.host.deliver g cursor len own ⟨world', cursor, [.position position]⟩ = delivery at hkept hends ⊢
      obtain ⟨outcome, kept, s⟩ := delivery
      cases outcome with
      | ok report => exact ⟨rfl, rfl, rfl, Or.inl ⟨report, rfl, hends.2.1, rfl, rfl⟩⟩
      | error halt => exact ⟨rfl, rfl, rfl, Or.inr (Or.inr ⟨halt, rfl, hends, rfl, rfl⟩)⟩
    · obtain rfl : cursor = position := by simpa [hasUnread] using hunread
      simp only [Stage.start, Stage.load_cell, hunread, Bool.false_eq_true, ↓reduceIte]
      exact ⟨rfl, rfl, rfl, Or.inl ⟨_, rfl, rfl, rfl, rfl⟩⟩
  · simp only [hcontains, Bool.false_eq_true, ↓reduceIte]
    have hcapacity : g.capacity ≤ position := Nat.le_of_not_lt fun hlt => hcontains (g.contains_iff.mpr hlt)
    exact ⟨rfl, rfl, rfl, Or.inr (Or.inl ⟨rfl, hcapacity, rfl, rfl, rfl⟩)⟩

/-- Two pages of three bytes each. -/
def twoPages : Geometry := ⟨6, 3, by decide, by decide, by decide⟩

/-- A source of two pages, whose write position is 0, and a sink that refuses its second chunk; the number says how many
chunks it was handed. -/
def choosy : World (Source × Nat) where
  position world := (world.1.position, world)
  fetch page world := (world.1.page page, world)
  accept _ world := (if world.2 = 1 then .error ⟨.other, "full"⟩ else .ok (), world.1, world.2 + 1)

theorem drains_agree_choosy :
    Agreement twoPages 1 0
      (Sequential.transfer choosy.host twoPages 1 .empty (.start (.table #[[10, 11, 12], [13, 14, 15]] 0, 0) 1))
      (Concurrent.transfer choosy.host Stage.cell twoPages 1 .empty
        (.start (.table #[[10, 11, 12], [13, 14, 15]] 0, 0) 1)) ∧
    (Sequential.transfer choosy.host twoPages 1 .empty (.start (.table #[[10, 11, 12], [13, 14, 15]] 0, 0) 1)).1 =
      .error (.error (.sink 1 0 2 ⟨.other, "full"⟩)) := by
  refine ⟨?_, by cbv⟩
  exact drains_agree choosy twoPages (show 1 < twoPages.capacity by decide) 0 .empty .empty
    (.table #[[10, 11, 12], [13, 14, 15]] 0, 0)

end PagedRing
