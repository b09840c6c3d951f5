/-!
# Machine words

Lengths and positions are machine words: natural numbers below `wordBound`. Sums, differences and products are
checked, and a result that is no word is a `Fault`, the reason why a computation stopped without an answer. Counts of
attempts are shorter, and buffers have at most half as many bytes as there are words.

* `Word.add_of_lt`, `Word.sub_of_le`: inside the bounds the operations are those of `Nat`.
* `Word.add_eq_ok_iff`, `Word.sub_eq_ok_iff`, `Word.mul_eq_ok_iff`: they have no other results.
* `Count.next_eq_ok_iff`, `Count.next_eq_error_iff`: a count has a next one unless it is the largest.
* `Fault.bind_eq_ok_iff`: a sequence of computations has a result exactly when each of them has one.
-/

namespace PagedRing

/-- Machine words are the numbers below this bound. -/
def wordBound : Nat := UInt64.size

/-- Counts of attempts are the numbers below this bound. -/
def countBound : Nat := UInt32.size

/-- Why a computation stopped without an answer. -/
inductive Fault where
  /-- A sum above the largest word, or above the largest count. -/
  | addOverflow
  /-- A difference below zero. -/
  | subOverflow
  /-- A product above the largest word. -/
  | mulOverflow
  /-- A range that starts outside its ring. -/
  | startOutside (start : Nat)
  /-- A range longer than its ring. -/
  | lengthExceeds (len : Nat)
  /-- A slice that leaves its buffer. -/
  | outOfBounds
  /-- A buffer that no memory can hold. -/
  | tooLarge
deriving DecidableEq, Inhabited

/-- The text of a fault; one of memory has none. -/
def Fault.message? : Fault → Option String
  | .addOverflow => some "attempt to add with overflow"
  | .subOverflow => some "attempt to subtract with overflow"
  | .mulOverflow => some "attempt to multiply with overflow"
  | .startOutside start => some s!"start {start} outside ring"
  | .lengthExceeds len => some s!"range of {len} bytes exceeds capacity"
  | .outOfBounds | .tooLarge => none

/-- A sequence of two computations has a result exactly when both have one. -/
theorem Fault.bind_eq_ok_iff {α β : Type} {x : Except Fault α} {f : α → Except Fault β} {b : β} :
    x >>= f = .ok b ↔ ∃ a, x = .ok a ∧ f a = .ok b := by
  cases x <;> simp [bind, Except.bind]

namespace Word

/-- The sum, if it is a word. -/
def add (a b : Nat) : Except Fault Nat :=
  if a + b < wordBound then .ok (a + b) else .error .addOverflow

/-- The difference, if it is not negative. -/
def sub (a b : Nat) : Except Fault Nat :=
  if b ≤ a then .ok (a - b) else .error .subOverflow

/-- The product, if it is a word. -/
def mul (a b : Nat) : Except Fault Nat :=
  if a * b < wordBound then .ok (a * b) else .error .mulOverflow

theorem add_of_lt {a b : Nat} (h : a + b < wordBound) : add a b = .ok (a + b) := if_pos h

theorem sub_of_le {a b : Nat} (h : b ≤ a) : sub a b = .ok (a - b) := if_pos h

theorem add_eq_ok_iff {a b c : Nat} : add a b = .ok c ↔ a + b < wordBound ∧ a + b = c := by
  by_cases h : a + b < wordBound <;> simp [add, h]

theorem sub_eq_ok_iff {a b c : Nat} : sub a b = .ok c ↔ b ≤ a ∧ a - b = c := by
  by_cases h : b ≤ a <;> simp [sub, h]

theorem mul_eq_ok_iff {a b c : Nat} : mul a b = .ok c ↔ a * b < wordBound ∧ a * b = c := by
  by_cases h : a * b < wordBound <;> simp [mul, h]

end Word

namespace Count

/-- The next count, if there is one. -/
def next (count : Nat) : Except Fault Nat :=
  if count + 1 < countBound then .ok (count + 1) else .error .addOverflow

theorem next_eq_ok_iff {count following : Nat} :
    next count = .ok following ↔ count + 1 < countBound ∧ count + 1 = following := by
  by_cases h : count + 1 < countBound <;> simp [next, h]

theorem next_eq_error_iff {count : Nat} {fault : Fault} :
    next count = .error fault ↔ countBound ≤ count + 1 ∧ fault = .addOverflow := by
  rw [← Nat.not_lt]
  by_cases h : count + 1 < countBound <;> simp [next, h, eq_comm]

end Count

/-- Takes the memory for a buffer; half of the machine words are sizes of one. -/
def allocate (size : Nat) : Except Fault Unit := if 2 * size < wordBound then .ok () else .error .tooLarge

end PagedRing
