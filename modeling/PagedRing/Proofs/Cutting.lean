import PagedRing.Proofs.Handling

/-!
# Where a stream is cut

A consumer that accepts every line is fed a stream chunk by chunk. Without a limit it does not matter where the stream is
cut. A limit is looked at where a chunk ends, so the cuts decide whether a chunk is refused, but nothing else: as long as
none is, the lines are those of the stream, and larger chunks that end at some of the same places are accepted as well.

* `LineFramer.serve`: chunks one after the other, and what came of each.
* `LineFramer.serve_cases`: no chunk is refused, or the limit is exceeded at the end of one.
* `LineFramer.calls_short`: lines are not much longer than the limit.
* `LineFramer.cuts_do_not_matter`: what the cuts decide and what they do not.
-/

namespace PagedRing

namespace LineFramer

variable {σ : Type} {onLine : Bytes → σ → Except SinkError Unit × σ} {f : LineFramer} {read : Bytes}
  {chunks : List Bytes}

/-! ## Chunks one after the other -/

/-- What came of a chunk. -/
structure Served where
  outcome : Except SinkError Unit
  /-- The lines that were offered. -/
  calls : List Bytes

/-- Feeds chunks one after the other, also after a refusal. -/
def serve (onLine : Bytes → σ → Except SinkError Unit × σ) (f : LineFramer) (s : σ) :
    List Bytes → List Served × LineFramer
  | [] => ([], f)
  | chunk :: rest =>
    match f.feed (recorded onLine) chunk (s, []) with
    | (outcome, f, s, calls) =>
      let (served, last) := serve onLine f s rest
      (⟨outcome, calls⟩ :: served, last)

theorem length_serve (onLine : Bytes → σ → Except SinkError Unit × σ) (f : LineFramer) (s : σ) (chunks : List Bytes) :
    (serve onLine f s chunks).1.length = chunks.length := by
  induction chunks generalizing f s with
  | nil => rfl
  | cons chunk rest ih =>
    rw [serve]
    simp [ih]

/-- All lines that were offered. -/
def offered (served : List Served) : List Bytes := served.flatMap Served.calls

@[simp] theorem offered_cons (first : Served) (rest : List Served) :
    offered (first :: rest) = first.calls ++ offered rest := List.flatMap_cons

/-- Whether a chunk was refused. -/
def Refused (served : List Served) : Prop := ∃ chunk ∈ served, chunk.outcome ≠ .ok ()

theorem not_refused_cons {first : Served} {rest : List Served} (hfirst : first.outcome = .ok ()) (hrest : ¬Refused rest) :
    ¬Refused (first :: rest) := by
  rintro ⟨chunk, hmem, hne⟩
  rcases List.mem_cons.mp hmem with rfl | hmem
  · exact hne hfirst
  · exact hrest ⟨chunk, hmem, hne⟩

/-- Whether more bytes than the limit allows for have come since the last newline where some chunk ends; `read` is what
came before the chunks. -/
def Exceeds (limit : Option Nat) (read : Bytes) (chunks : List Bytes) : Prop :=
  ∃ max ∈ limit, ∃ k < chunks.length, max < (unfinished (read ++ (chunks.take (k + 1)).flatten)).length

theorem exceeds_cons {limit : Option Nat} {chunk : Bytes} {rest : List Bytes} :
    Exceeds limit read (chunk :: rest) ↔
      (∃ max ∈ limit, max < (unfinished (read ++ chunk)).length) ∨ Exceeds limit (read ++ chunk) rest := by
  constructor
  · rintro ⟨max, hmax, k, hk, hlong⟩
    cases k with
    | zero =>
      left
      exact ⟨max, hmax, by simpa using hlong⟩
    | succ k =>
      right
      exact ⟨max, hmax, k, by simpa using hk, by simpa using hlong⟩
  · rintro (⟨max, hmax, hlong⟩ | ⟨max, hmax, k, hk, hlong⟩)
    · exact ⟨max, hmax, 0, by simp, by simpa using hlong⟩
    · exact ⟨max, hmax, k + 1, by simpa using hk, by simpa using hlong⟩

/-! ## Consumers that refuse no line -/

section Accepting

variable (haccepts : ∀ line s, (onLine line s).1 = .ok ())

include haccepts in
/-- All lines of a chunk are offered, and the chunk is refused exactly if its unfinished line is too long. -/
theorem feed_of_accepting (hf : newline ∉ f.pending.toList) (chunk : Bytes) (s : σ) :
    ∃ outcome f' t, f.feed (recorded onLine) chunk (s, []) = (outcome, f', t, lines (f.pending.toList ++ chunk)) ∧
      ((outcome = .ok () ∧ f' = ⟨(unfinished (f.pending.toList ++ chunk)).toArray, f.limit⟩ ∧
          ∀ max ∈ f.limit, (unfinished (f.pending.toList ++ chunk)).length ≤ max) ∨
        (outcome ≠ .ok () ∧ f' = start f.limit ∧
          ∃ max ∈ f.limit, max < (unfinished (f.pending.toList ++ chunk)).length)) := by
  obtain ⟨calls, outcome, f', t, -, hrecord, hend⟩ := handled_feed onLine hf chunk s
  cases hend with
  | @refused before after line cause t t' hls hbefore hline =>
    have hok := haccepts line t
    rw [hline] at hok
    cases hok
  | overlong hls hlimit hlong =>
    refine ⟨_, _, _, hrecord, Or.inr ⟨?_, rfl, _, hlimit, hlong⟩⟩
    intro hok
    cases hok
  | kept hls hshort => exact ⟨_, _, _, hrecord, Or.inl ⟨rfl, rfl, hshort⟩⟩

include haccepts in
/-- If no chunk ends above the limit, then none is refused, the lines are those of the stream, and the framer keeps its
unfinished line. Otherwise some chunk is refused. -/
theorem serve_cases (hf : f.pending.toList = unfinished read) (s : σ) (chunks : List Bytes) :
    (¬Exceeds f.limit read chunks ∧ ¬Refused (serve onLine f s chunks).1 ∧
      lines read ++ offered (serve onLine f s chunks).1 = lines (read ++ chunks.flatten) ∧
      (serve onLine f s chunks).2 = ⟨(unfinished (read ++ chunks.flatten)).toArray, f.limit⟩) ∨
    (Exceeds f.limit read chunks ∧ Refused (serve onLine f s chunks).1) := by
  induction chunks generalizing f read s with
  | nil =>
    left
    refine ⟨?_, ?_, ?_, ?_⟩
    · rintro ⟨max, -, k, hk, -⟩
      cases hk
    · rintro ⟨chunk, hmem, -⟩
      cases hmem
    · simp [serve, offered]
    · simp [serve, ← hf]
  | cons chunk rest ih =>
    have hpending : newline ∉ f.pending.toList := hf ▸ newline_not_mem_unfinished read
    obtain ⟨outcome, f', t, hfeed, hend⟩ := feed_of_accepting haccepts hpending chunk s
    rw [hf, ← unfinished_append] at hend
    have hserve : serve onLine f s (chunk :: rest) =
        (⟨outcome, lines (f.pending.toList ++ chunk)⟩ :: (serve onLine f' t rest).1, (serve onLine f' t rest).2) := by
      rw [serve, hfeed]
    rw [hserve, exceeds_cons]
    rcases hend with ⟨rfl, rfl, hshort⟩ | ⟨hne, rfl, hlong⟩
    · have hkept : (⟨(unfinished (read ++ chunk)).toArray, f.limit⟩ : LineFramer).pending.toList =
        unfinished (read ++ chunk) := rfl
      rcases ih hkept t with ⟨hexceeds, hrefused, hlines, hlast⟩ | ⟨hexceeds, chunk', hmem, hne⟩
      · left
        refine ⟨?_, not_refused_cons rfl hrefused, ?_, ?_⟩
        · rintro (⟨max, hmax, hlong⟩ | hlater)
          · have := hshort max hmax
            omega
          · exact hexceeds hlater
        · rw [lines_append, List.append_assoc] at hlines
          rw [offered_cons, hf, hlines, List.flatten_cons, List.append_assoc]
        · rw [hlast, List.flatten_cons, List.append_assoc]
      · right
        exact ⟨Or.inr hexceeds, chunk', List.mem_cons_of_mem _ hmem, hne⟩
    · right
      exact ⟨Or.inl hlong, _, List.mem_cons_self, hne⟩

end Accepting

/-! ## Lengths of lines -/

/-- A line is shorter than the string it is a line of. -/
theorem length_lt_of_mem_lines {line bytes : Bytes} (h : line ∈ lines bytes) : line.length < bytes.length := by
  obtain ⟨-, before, after, rfl, -⟩ := mem_lines_iff.mp h
  simp
  omega

/-- Lines are not much longer than the limit, whatever was refused before them: at most that many bytes waited for the
chunk that completes the line. -/
theorem calls_short (onLine : Bytes → σ → Except SinkError Unit × σ) {max : Nat} (hlimit : f.limit = some max)
    (hf : newline ∉ f.pending.toList) (hsize : f.pending.size ≤ max) (s : σ) (chunks : List Bytes) {k : Nat}
    {served : Served} {chunk : Bytes} (hserved : (serve onLine f s chunks).1[k]? = some served)
    (hchunk : chunks[k]? = some chunk) : ∀ line ∈ served.calls, line.length < max + chunk.length := by
  induction chunks generalizing f s k with
  | nil => cases hchunk
  | cons first rest ih =>
    obtain ⟨calls, outcome, f', t, -, hfeed, hend⟩ := handled_feed onLine hf first s
    have hserve : serve onLine f s (first :: rest) =
        (⟨outcome, calls⟩ :: (serve onLine f' t rest).1, (serve onLine f' t rest).2) := by
      rw [serve, hfeed]
    rw [hserve] at hserved
    cases k with
    | zero =>
      obtain rfl : ⟨outcome, calls⟩ = served := Option.some.inj hserved
      obtain rfl : first = chunk := Option.some.inj hchunk
      intro line hline
      have hlt := length_lt_of_mem_lines (hend.calls_isPrefix.subset hline)
      rw [List.length_append, f.pending.length_toList] at hlt
      omega
    | succ k =>
      obtain ⟨hpending, hshort⟩ := hend.pending (newline_not_mem_unfinished _)
      exact ih (hend.limit.trans hlimit) hpending (hshort max hlimit) t hserved hchunk

/-! ## Cuts -/

/-- What comes of chunks that are fed to a new framer whose consumer refuses no line. -/
structure Cut (onLine : Bytes → σ → Except SinkError Unit × σ) (limit : Option Nat) (chunks : List Bytes)
    (served : List Served) (last : LineFramer) : Prop where
  /-- A chunk is refused exactly if, where some chunk ends, more bytes than the limit allows for came since the last
  newline or the start. -/
  refused_iff : Refused served ↔
    ∃ max ∈ limit, ∃ k < chunks.length, max < (unfinished (chunks.take (k + 1)).flatten).length
  /-- If none is, the lines and what is kept make up the stream. -/
  whole : ¬Refused served →
    (offered served).flatMap (· ++ [newline]) ++ last.pending.toList = chunks.flatten ∧
      (∀ line ∈ offered served, newline ∉ line) ∧ newline ∉ last.pending.toList
  /-- Then none is refused either, and the lines are the same, if neighbouring chunks are merged. -/
  merged : ¬Refused served → ∀ (groups : List (List Bytes)) (s : σ), groups.flatten = chunks →
    ∃ served', serve onLine (start limit) s (groups.map List.flatten) = (served', last) ∧ ¬Refused served' ∧
      offered served' = offered served
  /-- Without a limit the lines are the same however the stream is cut. -/
  unlimited : limit = none → ¬Refused served ∧ ∀ (chunks' : List Bytes) (s : σ), chunks'.flatten = chunks.flatten →
    ∃ served', serve onLine (start none) s chunks' = (served', last) ∧ ¬Refused served' ∧
      offered served' = offered served
  /-- Each chunk was answered. -/
  answered : served.length = chunks.length
  /-- With a limit a line is shorter than the limit and the chunk with its newline together. -/
  short : ∀ max ∈ limit, ∀ (k : Nat) (answer : Served) (chunk : Bytes), served[k]? = some answer →
    chunks[k]? = some chunk → ∀ line ∈ answer.calls, line.length < max + chunk.length

/-- What comes of a stream that is fed to a new framer. -/
theorem serve_start (haccepts : ∀ line s, (onLine line s).1 = .ok ()) (limit : Option Nat) (s : σ)
    (chunks : List Bytes) :
    (¬Exceeds limit [] chunks ∧ ¬Refused (serve onLine (start limit) s chunks).1 ∧
      offered (serve onLine (start limit) s chunks).1 = lines chunks.flatten ∧
      (serve onLine (start limit) s chunks).2 = ⟨(unfinished chunks.flatten).toArray, limit⟩) ∨
    (Exceeds limit [] chunks ∧ Refused (serve onLine (start limit) s chunks).1) := by
  have hf : (start limit).pending.toList = unfinished [] := rfl
  exact serve_cases haccepts hf s chunks

/-- Where a merged chunk ends, one of the chunks ended before. -/
theorem not_exceeds_merged {limit : Option Nat} {groups : List (List Bytes)} (h : ¬Exceeds limit [] groups.flatten) :
    ¬Exceeds limit [] (groups.map List.flatten) := by
  rintro ⟨max, hmax, k, -, hlong⟩
  obtain ⟨n, hn, htake⟩ : ∃ n ≤ groups.flatten.length,
      ((groups.map List.flatten).take (k + 1)).flatten = (groups.flatten.take n).flatten := by
    have hsplit : groups.flatten = (groups.take (k + 1)).flatten ++ (groups.drop (k + 1)).flatten := by
      rw [← List.flatten_append, List.take_append_drop]
    refine ⟨(groups.take (k + 1)).flatten.length, ?_, ?_⟩
    · rw [hsplit, List.length_append]
      exact Nat.le_add_right _ _
    · rw [hsplit, List.take_left, ← List.map_take, List.flatten_flatten]
  rw [htake, List.nil_append] at hlong
  cases n with
  | zero => simp at hlong
  | succ n => exact h ⟨max, hmax, n, hn, hlong⟩

/-- The cuts of a stream decide whether a chunk is refused, and if none is they do not matter. -/
theorem cuts_do_not_matter (haccepts : ∀ line s, (onLine line s).1 = .ok ()) (limit : Option Nat) (s : σ)
    (chunks : List Bytes) :
    Cut onLine limit chunks (serve onLine (start limit) s chunks).1 (serve onLine (start limit) s chunks).2 := by
  have hstart := serve_start haccepts limit
  refine ⟨?_, ?_, ?_, ?_, length_serve .., ?_⟩
  · rcases hstart s chunks with ⟨hexceeds, hrefused, -⟩ | ⟨hexceeds, hrefused⟩
    · exact iff_of_false hrefused hexceeds
    · exact iff_of_true hrefused hexceeds
  · intro hnone
    rcases hstart s chunks with ⟨-, -, hoffered, hlast⟩ | ⟨-, hrefused⟩
    · rw [hoffered, hlast]
      refine ⟨flatMap_lines_append_unfinished chunks.flatten, ?_, newline_not_mem_unfinished chunks.flatten⟩
      intro line hline
      exact (mem_lines_iff.mp hline).1
    · exact absurd hrefused hnone
  · rintro hnone groups t rfl
    rcases hstart s groups.flatten with ⟨hexceeds, -, hoffered, hlast⟩ | ⟨-, hrefused⟩
    · rcases hstart t (groups.map List.flatten) with ⟨-, hnone', hoffered', hlast'⟩ | ⟨hexceeds', -⟩
      · refine ⟨_, Prod.ext rfl (hlast'.trans ?_), hnone', hoffered'.trans ?_⟩
        · rw [hlast, List.flatten_flatten]
        · rw [hoffered, List.flatten_flatten]
      · exact absurd hexceeds' (not_exceeds_merged hexceeds)
    · exact absurd hrefused hnone
  · rintro rfl
    have hunlimited : ∀ chunks, ¬Exceeds none [] chunks := by
      rintro chunks ⟨max, hmax, -⟩
      cases hmax
    rcases hstart s chunks with ⟨-, hnone, hoffered, hlast⟩ | ⟨hexceeds, -⟩
    · refine ⟨hnone, ?_⟩
      intro chunks' t hsame
      rcases hstart t chunks' with ⟨-, hnone', hoffered', hlast'⟩ | ⟨hexceeds, -⟩
      · refine ⟨_, Prod.ext rfl (hlast'.trans ?_), hnone', hoffered'.trans ?_⟩
        · rw [hlast, hsame]
        · rw [hoffered, hsame]
      · exact absurd hexceeds (hunlimited chunks')
    · exact absurd hexceeds (hunlimited chunks)
  · intro max hmax k answer chunk hserved hchunk
    exact calls_short onLine hmax (by simp [start]) (by simp [start]) s chunks hserved hchunk

/-- A consumer that keeps every line. -/
def keeping (line : Bytes) (kept : List Bytes) : Except SinkError Unit × List Bytes := (.ok (), kept ++ [line])

/-- Three lines, one of them empty, and two bytes more, in four chunks. -/
def joining : List Bytes := [[97, 98], [99, 10, 100, 101], [102, 10, 10, 103], [104]]

theorem cuts_do_not_matter_joining : (∀ line kept, (keeping line kept).1 = .ok ()) ∧
    ¬Refused (serve keeping (start (some 2)) [] joining).1 ∧
    Cut keeping (some 2) joining (serve keeping (start (some 2)) [] joining).1
      (serve keeping (start (some 2)) [] joining).2 := by
  have haccepts : ∀ line kept, (keeping line kept).1 = .ok () := by
    intro line kept
    rfl
  have hcut := cuts_do_not_matter haccepts (some 2) [] joining
  refine ⟨haccepts, ?_, hcut⟩
  rw [hcut.refused_iff]
  rintro ⟨max, hmax, k, hk, hlong⟩
  obtain rfl : 2 = max := Option.some.inj hmax
  exact (by decide : ∀ k < joining.length, ¬2 < (unfinished (joining.take (k + 1)).flatten).length) k hk hlong

end LineFramer

end PagedRing
