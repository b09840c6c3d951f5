import PagedRing.Geometry

/-!
# Distances around the ring

Steps and distances are sums and differences modulo the capacity, although no number on the way is larger than a word.
The distance from one position to another is the only number below the capacity whose step leads there, and the other
laws follow from that.

* `unreadLen_eq`: distances between any two words.
* `Geometry.unreadLen_eq_ok_iff`: distances between positions of the ring, by their steps.
* `Geometry.advance_add`: a step is taken in any number of parts.
* `Geometry.Modular`, `Geometry.modular`: all laws of steps and distances, for every geometry.
-/

namespace PagedRing

/-- Between any two words there is a distance, unless the way leads past the end of a ring that does not reach to the
first one. -/
theorem unreadLen_eq {read write capacity : Nat} (hcapacity : capacity < wordBound) :
    unreadLen read write capacity =
      if read ≤ write then .ok (write - read)
      else if read ≤ capacity then .ok (capacity - read + write)
      else .error .subOverflow := by
  unfold unreadLen
  split
  · next hle => exact Word.sub_of_le hle
  · next hlt =>
    by_cases hread : read ≤ capacity
    · rw [if_pos hread, Word.sub_of_le hread]
      exact Word.add_of_lt (by omega)
    · rw [if_neg hread, Word.sub, if_neg hread]
      rfl

namespace Geometry

variable (g : Geometry)

/-! ## Steps -/

/-- There is no step from beyond the end of the ring. -/
theorem advance_of_gt {position : Nat} (h : g.capacity < position) (count : Nat) :
    g.advance position count = .error .subOverflow := by
  rw [advance, Word.sub, if_neg (Nat.not_le_of_gt h)]
  rfl

/-- A step that is taken in two parts. -/
theorem advance_add {position next m : Nat} (h : position ≤ g.capacity)
    (hnext : g.advance position m = .ok next) (n : Nat) : g.advance next n = g.advance position (m + n) := by
  have hlt := g.lt_of_advance h hnext
  rw [g.advance_of_le h, Except.ok.injEq] at hnext
  rw [g.advance_of_le (Nat.le_of_lt hlt), g.advance_of_le h, ← hnext, Nat.mod_add_mod, Nat.add_assoc]

/-- Whole turns do not count. -/
theorem advance_mod {position : Nat} (h : position ≤ g.capacity) (count : Nat) :
    g.advance position (count % g.capacity) = g.advance position count := by
  rw [g.advance_of_le h, g.advance_of_le h, Nat.add_mod_mod]

/-! ## Distances -/

variable {read write len : Nat}

/-- The number of bytes between two positions, from a step between them. -/
theorem unreadLen_of_advance {count : Nat} (hread : read < g.capacity) (hcount : count < g.capacity)
    (h : g.advance read count = .ok write) : g.unreadLen read write = .ok count := by
  rw [g.advance_of_le (Nat.le_of_lt hread), Except.ok.injEq] at h
  rw [g.unreadLen_of_le (Nat.le_of_lt hread), Except.ok.injEq]
  rcases Nat.lt_or_ge (read + count) g.capacity with hin | hout
  · rw [Nat.mod_eq_of_lt hin] at h
    rw [if_pos (by omega)]
    omega
  · rw [Nat.mod_eq_sub_mod hout, Nat.mod_eq_of_lt (by omega)] at h
    rw [if_neg (by omega)]
    omega

/-- The distance from one position to another is the number below the capacity whose step leads there. -/
theorem unreadLen_eq_ok_iff (hread : read < g.capacity) (hwrite : write < g.capacity) :
    g.unreadLen read write = .ok len ↔ len < g.capacity ∧ g.advance read len = .ok write := by
  constructor
  · intro hlen
    exact (g.advance_unreadLen hread hwrite hlen).symm
  · rintro ⟨hlt, hadvance⟩
    exact g.unreadLen_of_advance hread hlt hadvance

/-- Between positions of the ring there is a distance below the capacity, and its step leads from one to the other. -/
theorem exists_unreadLen (hread : read < g.capacity) (hwrite : write < g.capacity) :
    ∃ len, g.unreadLen read write = .ok len ∧ len < g.capacity ∧ g.advance read len = .ok write := by
  have hlen : g.unreadLen read write = .ok _ := g.unreadLen_of_le (Nat.le_of_lt hread)
  exact ⟨_, hlen, (g.unreadLen_eq_ok_iff hread hwrite).mp hlen⟩

/-- Only a position itself is at distance zero. -/
theorem unreadLen_eq_zero_iff (hread : read < g.capacity) (hlen : g.unreadLen read write = .ok len) :
    len = 0 ↔ read = write := by
  rw [g.unreadLen_of_le (Nat.le_of_lt hread), Except.ok.injEq] at hlen
  split at hlen <;> omega

/-- A distance is the difference modulo the capacity. -/
theorem unreadLen_eq_emod (hread : read < g.capacity) (hwrite : write < g.capacity)
    (hlen : g.unreadLen read write = .ok len) : (len : Int) = ((write : Int) - read) % g.capacity := by
  rw [g.unreadLen_of_le (Nat.le_of_lt hread), Except.ok.injEq] at hlen
  split at hlen
  · next hle =>
    rw [Int.emod_eq_of_lt (by omega) (by omega)]
    omega
  · next hlt =>
    rw [← Int.add_emod_right, Int.emod_eq_of_lt (by omega) (by omega)]
    omega

/-- A step leads as far as it is long, up to whole turns. -/
theorem unreadLen_advance (hread : read < g.capacity) {count : Nat} (h : g.advance read count = .ok write) :
    g.unreadLen read write = .ok (count % g.capacity) := by
  apply g.unreadLen_of_advance hread (Nat.mod_lt count g.capacity_pos)
  rw [g.advance_mod (Nat.le_of_lt hread), h]

/-- The distances to a third position and from there add up to the distance, or to one turn more. -/
theorem unreadLen_add {a b d x y z : Nat} (ha : a < g.capacity) (hb : b < g.capacity) (hd : d < g.capacity)
    (hx : g.unreadLen a b = .ok x) (hy : g.unreadLen b d = .ok y) (hz : g.unreadLen a d = .ok z) :
    x + y = z ∨ x + y = z + g.capacity := by
  obtain ⟨hxlt, hab⟩ := (g.unreadLen_eq_ok_iff ha hb).mp hx
  obtain ⟨hylt, hbd⟩ := (g.unreadLen_eq_ok_iff hb hd).mp hy
  have had : g.advance a (x + y) = .ok d := by rw [← g.advance_add (Nat.le_of_lt ha) hab, hbd]
  obtain rfl : (x + y) % g.capacity = z := Except.ok.inj ((g.unreadLen_advance ha had).symm.trans hz)
  rcases Nat.lt_or_ge (x + y) g.capacity with hin | hout
  · exact .inl (Nat.mod_eq_of_lt hin).symm
  · rw [Nat.mod_eq_sub_mod hout, Nat.mod_eq_of_lt (by omega)]
    omega

/-! ## All laws -/

/-- The laws of steps and distances; numbers without a bound may be larger than any word. -/
structure Modular : Prop where
  /-- There is a step from everywhere but from beyond the end of the ring. -/
  no_step_iff : ∀ position count, (∃ fault, g.advance position count = .error fault) ↔ g.capacity < position
  /-- It is a sum modulo the capacity, also from the end of the ring. -/
  step : ∀ position count, position ≤ g.capacity →
    g.advance position count = .ok ((position + count) % g.capacity)
  /-- A distance is a difference modulo the capacity. It is zero for one and the same position, and its step leads from
  one position to the other. -/
  distance : ∀ read write, read < g.capacity → write < g.capacity → ∃ len, g.unreadLen read write = .ok len ∧
    (len : Int) = ((write : Int) - read) % g.capacity ∧ len < g.capacity ∧ (len = 0 ↔ read = write) ∧
    (hasUnread read write = true ↔ len ≠ 0) ∧ g.advance read len = .ok write
  /-- The distance to where a step leads is the step, without its whole turns. -/
  distance_step : ∀ read count, read < g.capacity → ∃ write, g.advance read count = .ok write ∧
    g.unreadLen read write = .ok (count % g.capacity)
  /-- Two steps are one, modulo the capacity. -/
  step_step : ∀ position m n, position < g.capacity → ∃ mid last, g.advance position m = .ok mid ∧
    g.advance mid n = .ok last ∧ g.advance position ((m % g.capacity + n % g.capacity) % g.capacity) = .ok last
  /-- Distances add up, modulo one turn. -/
  distance_add : ∀ a b d, a < g.capacity → b < g.capacity → d < g.capacity → ∃ x y z, g.unreadLen a b = .ok x ∧
    g.unreadLen b d = .ok y ∧ g.unreadLen a d = .ok z ∧ (x + y = z ∨ x + y = z + g.capacity)

/-- The laws hold for every geometry. -/
theorem modular : g.Modular where
  no_step_iff position count := by
    constructor
    · rintro ⟨fault, hfault⟩
      refine Nat.lt_of_not_le fun hle => ?_
      rw [g.advance_of_le hle] at hfault
      cases hfault
    · intro hgt
      exact ⟨_, g.advance_of_gt hgt count⟩
  step position count h := g.advance_of_le h count
  distance read write hread hwrite := by
    obtain ⟨len, hlen, hlt, hadvance⟩ := g.exists_unreadLen hread hwrite
    have hzero := g.unreadLen_eq_zero_iff hread hlen
    refine ⟨len, hlen, g.unreadLen_eq_emod hread hwrite hlen, hlt, hzero, ?_, hadvance⟩
    rw [hasUnread, bne_iff_ne, Ne, ← hzero]
  distance_step read count hread := by
    have hadvance := g.advance_of_le (Nat.le_of_lt hread) count
    exact ⟨_, hadvance, g.unreadLen_advance hread hadvance⟩
  step_step position m n hposition := by
    have hle := Nat.le_of_lt hposition
    have hmid := g.advance_of_le hle m
    have hlast := g.advance_of_le hle (m + n)
    refine ⟨_, _, hmid, (g.advance_add hle hmid n).trans hlast, ?_⟩
    rw [← Nat.add_mod, g.advance_mod hle, hlast]
  distance_add a b d ha hb hd := by
    obtain ⟨x, hx, -⟩ := g.exists_unreadLen ha hb
    obtain ⟨y, hy, -⟩ := g.exists_unreadLen hb hd
    obtain ⟨z, hz, -⟩ := g.exists_unreadLen ha hd
    exact ⟨x, y, z, hx, hy, hz, g.unreadLen_add ha hb hd hx hy hz⟩

end Geometry

/-- For every geometry, steps and distances are sums and differences modulo the capacity. Between words that need not lie
in a ring, there is no distance exactly if the way leads past the end of a ring that does not reach to the first one. -/
theorem positions_modular (g : Geometry) :
    g.Modular ∧ ∀ read write capacity, capacity < wordBound →
      ((∃ fault, unreadLen read write capacity = .error fault) ↔ write < read ∧ capacity < read) := by
  refine ⟨g.modular, fun read write capacity hcapacity => ?_⟩
  rw [unreadLen_eq hcapacity]
  split
  · simp only [reduceCtorEq, exists_false, false_iff]
    omega
  · split
    · simp only [reduceCtorEq, exists_false, false_iff]
      omega
    · simp only [Except.error.injEq, exists_eq', true_iff]
      omega

/-- The end of the largest ring, and one position beyond it. -/
example : unreadLen 18446744073709551614 3 18446744073709551615 = .ok 4 ∧
    unreadLen 18446744073709551614 3 18446744073709551613 = .error .subOverflow := ⟨rfl, rfl⟩

end PagedRing
