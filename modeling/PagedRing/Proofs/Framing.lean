import PagedRing.Lines

/-!
# Lines of a stream

The complete lines of a string of bytes, and the bytes after its last newline. A framer that is fed a string chunk by
chunk offers the lines of the string, in order, wherever it was cut.

* `lines_append`, `unfinished_append`: a string that goes on goes on with its unfinished line.
* `mem_lines_iff`: a line is what stands between two newlines, or before the first one.
* `LineFramer.feed_eq`: what a framer does with a chunk.
-/

namespace PagedRing

/-- The complete lines, without their newlines. -/
def lines (bytes : Bytes) : List Bytes := (bytes.splitOn newline).dropLast

/-- The bytes after the last newline. -/
def unfinished (bytes : Bytes) : Bytes := (bytes.splitOn newline).getLast (List.splitOn_ne_nil newline bytes)

variable {a b line tail bytes : Bytes}

/-! ## Lines of strings -/

theorem lines_append_unfinished (bytes : Bytes) : lines bytes ++ [unfinished bytes] = bytes.splitOn newline :=
  List.dropLast_concat_getLast _

theorem eq_of_splitOn {ls : List Bytes} (h : bytes.splitOn newline = ls ++ [tail]) :
    lines bytes = ls ∧ unfinished bytes = tail := by
  have hconcat := (lines_append_unfinished bytes).trans h
  exact ⟨(List.append_inj' hconcat rfl).1, List.singleton_inj.mp (List.append_inj' hconcat rfl).2⟩

/-- Without a newline there is no complete line. -/
theorem lines_of_not_mem (h : newline ∉ bytes) : lines bytes = [] ∧ unfinished bytes = bytes :=
  eq_of_splitOn (by rw [List.splitOn_eq_singleton h, List.nil_append])

@[simp] theorem lines_nil : lines [] = [] := rfl

@[simp] theorem unfinished_nil : unfinished [] = [] := rfl

/-- The first newline ends the first line. -/
theorem lines_cons (h : newline ∉ line) (tail : Bytes) :
    lines (line ++ newline :: tail) = line :: lines tail ∧ unfinished (line ++ newline :: tail) = unfinished tail := by
  refine eq_of_splitOn ?_
  rw [List.splitOn_append_cons_self_of_not_mem h, ← lines_append_unfinished, List.cons_append]

/-- A string starts with a line, or it has none. -/
theorem first_line (bytes : Bytes) : newline ∉ bytes ∨
    ∃ line tail, bytes = line ++ newline :: tail ∧ newline ∉ line ∧ tail.length < bytes.length := by
  cases hcut : LineFramer.cut bytes with
  | none => exact Or.inl (LineFramer.cut_eq_none_iff.mp hcut)
  | some found =>
    obtain ⟨line, tail⟩ := found
    obtain ⟨heq, hline⟩ := LineFramer.cut_eq_some_iff.mp hcut
    exact Or.inr ⟨line, tail, heq, hline, LineFramer.length_lt_of_cut hcut⟩

/-- What holds of strings without a newline, and of strings that begin with a line if it holds of the rest, holds of
all strings. -/
theorem line_induction {p : Bytes → Prop} (rest : ∀ bytes, newline ∉ bytes → p bytes)
    (cons : ∀ line tail, newline ∉ line → p tail → p (line ++ newline :: tail)) (bytes : Bytes) : p bytes := by
  induction hn : bytes.length using Nat.strongRecOn generalizing bytes with
  | _ n ih =>
    rcases first_line bytes with h | ⟨line, tail, rfl, hline, hlt⟩
    · exact rest bytes h
    · exact cons line tail hline (ih tail.length (hn ▸ hlt) tail rfl)

/-- The bytes after the last newline hold none. -/
theorem newline_not_mem_unfinished (bytes : Bytes) : newline ∉ unfinished bytes := by
  induction bytes using line_induction with
  | rest bytes h => rw [(lines_of_not_mem h).2]; exact h
  | cons line tail h ih => rw [(lines_cons h tail).2]; exact ih

theorem append_eq (a b : Bytes) :
    lines (a ++ b) = lines a ++ lines (unfinished a ++ b) ∧ unfinished (a ++ b) = unfinished (unfinished a ++ b) := by
  induction a using line_induction with
  | rest a h =>
    obtain ⟨hlines, hrest⟩ := lines_of_not_mem h
    rw [hlines, hrest, List.nil_append]
    exact ⟨rfl, rfl⟩
  | cons line tail h ih =>
    obtain ⟨hlines, hrest⟩ := lines_cons h tail
    obtain ⟨hlines', hrest'⟩ := lines_cons h (tail ++ b)
    rw [List.append_assoc, List.cons_append, hlines', hrest', hlines, hrest, ih.1, ih.2]
    exact ⟨rfl, rfl⟩

/-- A string that goes on goes on with its unfinished line. -/
theorem lines_append (a b : Bytes) : lines (a ++ b) = lines a ++ lines (unfinished a ++ b) := (append_eq a b).1

theorem unfinished_append (a b : Bytes) : unfinished (a ++ b) = unfinished (unfinished a ++ b) := (append_eq a b).2

/-- The lines of the beginning of a string are the first lines of the string. -/
theorem lines_isPrefix (h : a <+: b) : lines a <+: lines b := by
  obtain ⟨rest, rfl⟩ := h
  rw [lines_append]
  exact List.prefix_append _ _

/-- A string that starts at the start of a line keeps its lines. -/
theorem lines_append_of_start (h : unfinished a = []) (b : Bytes) : lines (a ++ b) = lines a ++ lines b := by
  rw [lines_append, h, List.nil_append]

/-- Nothing of a string is lost. -/
theorem flatMap_lines_append_unfinished (bytes : Bytes) :
    (lines bytes).flatMap (· ++ [newline]) ++ unfinished bytes = bytes := by
  induction bytes using line_induction with
  | rest bytes h =>
    obtain ⟨hlines, hrest⟩ := lines_of_not_mem h
    rw [hlines, hrest]
    rfl
  | cons line tail h ih =>
    obtain ⟨hlines, hrest⟩ := lines_cons h tail
    rw [hlines, hrest, List.flatMap_cons, List.append_assoc, ih, List.append_assoc]
    rfl

/-- A line is what stands between two newlines, or before the first one. -/
theorem mem_lines_iff : line ∈ lines bytes ↔
    newline ∉ line ∧ ∃ before after, bytes = before ++ (line ++ newline :: after) ∧ unfinished before = [] := by
  constructor
  · induction bytes using line_induction with
    | rest bytes h =>
      rw [(lines_of_not_mem h).1]
      nofun
    | cons first tail h ih =>
      rw [(lines_cons h tail).1]
      intro hmem
      rcases List.mem_cons.mp hmem with rfl | hmem
      · exact ⟨h, [], tail, rfl, rfl⟩
      · obtain ⟨hline, before, after, rfl, hstart⟩ := ih hmem
        refine ⟨hline, first ++ newline :: before, after, by rw [List.append_assoc, List.cons_append], ?_⟩
        rw [(lines_cons h before).2, hstart]
  · rintro ⟨hline, before, after, rfl, hstart⟩
    rw [lines_append_of_start hstart, (lines_cons hline after).1]
    exact List.mem_append_right _ List.mem_cons_self

/-! ## Framers -/

namespace LineFramer

variable {σ : Type} (onLine : Bytes → σ → Except SinkError Unit × σ)

/-- Offers lines one after the other, up to the first refusal. -/
def offerAll : List Bytes → σ → Except SinkError Unit × σ
  | [], s => (.ok (), s)
  | line :: rest, s =>
    match onLine line s with
    | (.ok (), s) => offerAll rest s
    | (.error cause, s) => (.error cause, s)

/-- Bytes without a newline join those that wait for one. -/
theorem hold_eq (f : LineFramer) (bytes : Bytes) : f.hold bytes = (start f.limit).hold (f.pending.toList ++ bytes) := by
  have hpending : (#[] : Array UInt8) ++ (f.pending.toList ++ bytes) = f.pending ++ bytes :=
    Array.toList_inj.mp (by simp [Array.toList_appendList])
  unfold hold start
  dsimp only
  rw [hpending]

/-- The first line that a chunk completes. -/
theorem lines_cons_of_pending {pending : Bytes} (hpending : newline ∉ pending) (hline : newline ∉ line) (rest : Bytes) :
    lines (pending ++ (line ++ newline :: rest)) = (pending ++ line) :: lines rest ∧
      unfinished (pending ++ (line ++ newline :: rest)) = unfinished rest := by
  have hfirst : newline ∉ pending ++ line := by
    rw [List.mem_append, not_or]
    exact ⟨hpending, hline⟩
  rw [← List.append_assoc]
  exact lines_cons hfirst rest

/-- With a chunk, a framer offers the lines that the chunk completes, in order, up to the first refusal, and then keeps
the bytes after the last newline. After a refusal it keeps nothing. -/
theorem feed_eq (f : LineFramer) (hf : newline ∉ f.pending.toList) (chunk : Bytes) (s : σ) :
    f.feed onLine chunk s =
      match offerAll onLine (lines (f.pending.toList ++ chunk)) s with
      | (.ok (), s) =>
        (((start f.limit).hold (unfinished (f.pending.toList ++ chunk))).1,
          ((start f.limit).hold (unfinished (f.pending.toList ++ chunk))).2, s)
      | (.error cause, s) => (.error cause, start f.limit, s) := by
  fun_induction feed onLine f chunk s with
  | case1 f chunk s hcut outcome f' heq =>
    have hnone : newline ∉ f.pending.toList ++ chunk := by
      rw [List.mem_append, not_or]
      exact ⟨hf, cut_eq_none_iff.mp hcut⟩
    obtain ⟨hlines, hrest⟩ := lines_of_not_mem hnone
    rw [hlines, hrest, offerAll, ← hold_eq, heq]
  | case2 f chunk s line rest hcut f' s' heq ih =>
    obtain ⟨rfl, hline⟩ := cut_eq_some_iff.mp hcut
    obtain ⟨hlines, hrest⟩ := lines_cons_of_pending hf hline rest
    obtain ⟨hoffered, rfl⟩ := (emit_eq_iff onLine).mp heq
    rw [ih (by simp [start]), hlines, hrest, offerAll, hoffered]
    simp [start]
  | case3 f chunk s line rest hcut cause f' s' heq =>
    obtain ⟨rfl, hline⟩ := cut_eq_some_iff.mp hcut
    obtain ⟨hlines, -⟩ := lines_cons_of_pending hf hline rest
    obtain ⟨hoffered, rfl⟩ := (emit_eq_iff onLine).mp heq
    rw [hlines, offerAll, hoffered]

/-- An unfinished line is kept if the limit allows for it. -/
theorem hold_of_le {limit : Option Nat} {tail : Bytes} (h : ∀ max ∈ limit, tail.length ≤ max) :
    (start limit).hold tail = (.ok (), ⟨tail.toArray, limit⟩) := by
  unfold hold start
  cases limit with
  | none => simp
  | some max =>
    have hmax : tail.length ≤ max := h max rfl
    simp [hmax]

/-- Otherwise it is refused and dropped. -/
theorem hold_of_lt {max : Nat} {tail : Bytes} (h : max < tail.length) :
    (start (some max)).hold tail = (.error (overlong tail.length max), start (some max)) := by
  have hmax : ¬tail.length ≤ max := Nat.not_le.mpr h
  simp [hold, start, hmax]

/-- A limit allows for a number of bytes, or it is below it. -/
theorem allowed_or_above (limit : Option Nat) (len : Nat) :
    (∀ max ∈ limit, len ≤ max) ∨ ∃ max, limit = some max ∧ max < len := by
  cases limit with
  | none =>
    left
    intro max hmax
    cases hmax
  | some max =>
    rcases Nat.lt_or_ge max len with hlt | hge
    · exact Or.inr ⟨max, rfl, hlt⟩
    · left
      intro max' hmax
      rwa [← Option.some.inj hmax]

/-- A framer without a limit keeps any bytes. -/
theorem hold_of_unlimited (bytes : Bytes) : (start none).hold bytes = (.ok (), ⟨bytes.toArray, none⟩) := by
  apply hold_of_le
  intro max hmax
  cases hmax

end LineFramer

end PagedRing
