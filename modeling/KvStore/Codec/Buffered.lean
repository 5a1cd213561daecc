import Mathlib

/-!
# A buffered writer over a sink that may fail

A `Sink` takes bytes in order. A write to it can fail after any part of its bytes. `Writer` is the
buffered writer of Go's `bufio` package: it copies what fits into its buffer and flushes when the
buffer is full, it hands a write that is larger than the empty buffer straight to the sink, and
after the first failure of the sink it refuses everything.

* `Holds base data`: the writer has not failed, the sink has `base` and has or will have `data`
  after it.
* `Broken base data`: the writer has failed, and the sink has `base` and some part of the front of
  `data`.
* `Holds.write`, `Holds.flush`: what one call does to a writer that has not failed, at any buffer
  size and wherever the sink fails.
-/

namespace KvStore.Codec

/-- The bytes a sink has, and how the writes to it that are to come end: one with `some n` fails
after `n` bytes, or after all if there are fewer. Where nothing is said a write succeeds. -/
structure Sink where
  bytes : List UInt8
  faults : List (Option ℕ) := []

/-- Write to the sink: whether it succeeds, and how many bytes were written. -/
def Sink.write (s : Sink) (p : List UInt8) : Bool × ℕ × Sink :=
  match s.faults with
  | some n :: faults => (false, (p.take n).length, ⟨s.bytes ++ p.take n, faults⟩)
  | none :: faults => (true, p.length, ⟨s.bytes ++ p, faults⟩)
  | [] => (true, p.length, ⟨s.bytes ++ p, []⟩)

/-- `bufio.Writer`. -/
structure Writer where
  size : ℕ
  buf : List UInt8 := []
  failed : Bool := false
  sink : Sink

namespace Writer

/-- `Available`. -/
def available (w : Writer) : ℕ := w.size - w.buf.length

/-- `Flush`: whether it succeeds. -/
def flush (w : Writer) : Bool × Writer :=
  if w.failed then (false, w)
  else if w.buf = [] then (true, w)
  else
    match w.sink.write w.buf with
    | (true, _, sink) => (true, { w with buf := [], sink := sink })
    | (false, n, sink) => (false, { w with buf := w.buf.drop n, failed := true, sink := sink })

/-- The loop of `Write`, while what is left does not fit the buffer. Its first round empties the
buffer, if there is anything in it, and the next one the rest, so that there are at most two. -/
def drain : ℕ → Writer → List UInt8 → Writer × List UInt8
  | 0, w, p => (w, p)
  | rounds + 1, w, p =>
    if w.available < p.length ∧ w.failed = false then
      if w.buf = [] then
        drain rounds { w with failed := !(w.sink.write p).1, sink := (w.sink.write p).2.2 }
          (p.drop (w.sink.write p).2.1)
      else
        drain rounds ({ w with buf := w.buf ++ p.take w.available } : Writer).flush.2
    (p.drop w.available)
    else (w, p)

/-- `Write`: whether it succeeds. -/
def write (w : Writer) (p : List UInt8) : Bool × Writer :=
  match drain 2 w p with
  | (w, p) => if w.failed then (false, w) else (true, { w with buf := w.buf ++ p.take w.available })

/-- The writer has not failed; `base` is written, and with what is in the buffer so is `data` after
it. -/
structure Holds (w : Writer) (base data : List UInt8) : Prop where
  alive : w.failed = false
  front : base <+: w.sink.bytes
  all : w.sink.bytes ++ w.buf = base ++ data

/-- The writer has failed, with `base` and a part of the front of `data` written. -/
structure Broken (w : Writer) (base data : List UInt8) : Prop where
  failed : w.failed = true
  front : base <+: w.sink.bytes
  part : w.sink.bytes <+: base ++ data

variable {w : Writer} {base data p : List UInt8}

theorem flush_of_failed (h : w.failed = true) : w.flush = (false, w) := by rw [flush, if_pos h]

theorem write_of_failed (h : w.failed = true) (p : List UInt8) : w.write p = (false, w) := by
  simp [write, drain, h]

theorem Broken.mono (h : w.Broken base data) (p : List UInt8) : w.Broken base (data ++ p) :=
  ⟨h.failed, h.front, h.part.trans ⟨p, by rw [List.append_assoc]⟩⟩

/-- Flushing empties the buffer, or breaks the writer. -/
theorem Holds.flush (h : w.Holds base data) :
    (w.flush.1 = true ∧ w.flush.2.Holds base data ∧ w.flush.2.buf = []) ∨
      (w.flush.1 = false ∧ w.flush.2.Broken base data) := by
  have hfront := h.front
  have hall := h.all
  unfold Writer.flush
  rw [if_neg (by rw [h.alive]; decide)]
  split_ifs with hbuf
  · exact .inl ⟨rfl, h, hbuf⟩
  unfold Sink.write
  -- the sink takes the buffer, or a part of its front
  match w.sink.faults with
  | some n :: faults =>
    refine .inr ⟨rfl, rfl, hfront.trans (List.prefix_append _ _), ?_⟩
    rw [← hall]
    exact (List.prefix_append_right_inj _).mpr (List.take_prefix n _)
  | none :: faults =>
    exact .inl ⟨rfl, ⟨h.alive, hfront.trans (List.prefix_append _ _), by simpa using hall⟩, rfl⟩
  | [] =>
    exact .inl ⟨rfl, ⟨h.alive, hfront.trans (List.prefix_append _ _), by simpa using hall⟩, rfl⟩

/-- A write of `p` to a sink that has `base ++ data` and nothing in the buffer. -/
theorem Holds.direct (h : w.Holds base data) (hbuf : w.buf = []) (p : List UInt8) :
    ((w.sink.write p).1 = true ∧ p.drop (w.sink.write p).2.1 = [] ∧
      ({ w with failed := false, sink := (w.sink.write p).2.2 } : Writer).Holds base (data ++ p)) ∨
    ((w.sink.write p).1 = false ∧
      ({ w with failed := true, sink := (w.sink.write p).2.2 } : Writer).Broken base
        (data ++ p)) := by
  have hfront := h.front
  have hall := h.all
  rw [hbuf, List.append_nil] at hall
  unfold Sink.write
  match w.sink.faults with
  | some n :: faults =>
    refine .inr ⟨rfl, rfl, hfront.trans (List.prefix_append _ _), ?_⟩
    rw [← List.append_assoc, ← hall]
    exact (List.prefix_append_right_inj _).mpr (List.take_prefix n _)
  | none :: faults =>
    exact .inl ⟨rfl, List.drop_length, rfl,
      hfront.trans (List.prefix_append _ _), by simp [hbuf, hall]⟩
  | [] =>
    exact .inl ⟨rfl, List.drop_length, rfl,
      hfront.trans (List.prefix_append _ _), by simp [hbuf, hall]⟩

/-- With nothing in the buffer all is written. -/
theorem Holds.settle (h : w.Holds base data) (hbuf : w.buf = []) : w.Holds (base ++ data) [] := by
  have hall := h.all
  rw [hbuf, List.append_nil] at hall
  exact ⟨h.alive, hall ▸ List.prefix_rfl, by rw [hbuf, hall]⟩

/-- What fits the buffer is put there. -/
theorem Holds.put (h : w.Holds base data) (q : List UInt8) :
    ({ w with buf := w.buf ++ q } : Writer).Holds base (data ++ q) :=
  ⟨h.alive, h.front, by rw [← List.append_assoc, ← List.append_assoc, ← h.all]⟩

theorem drain_of_stop {rounds : ℕ} (h : ¬(w.available < p.length ∧ w.failed = false)) :
    drain rounds w p = (w, p) := by
  cases rounds with
  | zero => rfl
  | succ rounds => rw [drain, if_neg h]

/-- The rounds take a part of `p` from its front, or break the writer. -/
theorem Holds.drain (h : w.Holds base data) (rounds : ℕ) (p : List UInt8) :
    (∃ q, p = q ++ (drain rounds w p).2 ∧ (drain rounds w p).1.Holds base (data ++ q)) ∨
      (drain rounds w p).1.Broken base (data ++ p) := by
  induction rounds generalizing w data p with
  | zero => exact .inl ⟨[], rfl, by rwa [List.append_nil]⟩
  | succ rounds ih =>
    by_cases hgo : w.available < p.length ∧ w.failed = false
    swap
    · rw [drain_of_stop hgo]
      exact .inl ⟨[], rfl, by rwa [List.append_nil]⟩
    unfold Writer.drain
    rw [if_pos hgo]
    split_ifs with hbuf
    · rcases h.direct hbuf p with ⟨hok, hdrop, hw⟩ | ⟨hok, hw⟩
      · rw [hok, hdrop, drain_of_stop (by simp)]
        exact .inl ⟨p, (List.append_nil p).symm, hw⟩
      · rw [hok, drain_of_stop (by simp)]
        exact .inr hw
    · have hput := h.put (p.take w.available)
      have hsplit : data ++ p.take w.available ++ p.drop w.available = data ++ p := by
        rw [List.append_assoc, List.take_append_drop]
      rcases hput.flush with ⟨-, hw, -⟩ | ⟨-, hw⟩
      · rcases ih hw (p.drop w.available) with ⟨q, hq, hw'⟩ | hw'
        · refine .inl ⟨p.take w.available ++ q, ?_, by rwa [← List.append_assoc]⟩
          rw [List.append_assoc, ← hq, List.take_append_drop]
        · rw [hsplit] at hw'
          exact .inr hw'
      · rw [drain_of_stop (by simp [hw.failed])]
        have hw' := hw.mono (p.drop w.available)
        rw [hsplit] at hw'
        exact .inr hw'

/-- One round is enough when there is nothing in the buffer. -/
theorem Holds.drain_fits_of_nil (h : w.Holds base data) (hbuf : w.buf = []) (rounds : ℕ)
    (p : List UInt8) : (Writer.drain (rounds + 1) w p).1.failed = true ∨
      (Writer.drain (rounds + 1) w p).2.length ≤ (Writer.drain (rounds + 1) w p).1.available := by
  by_cases hgo : w.available < p.length ∧ w.failed = false
  · unfold Writer.drain
    rw [if_pos hgo, if_pos hbuf]
    rcases h.direct hbuf p with ⟨hok, hdrop, -⟩ | ⟨hok, -⟩
    · rw [hok, hdrop, drain_of_stop (by simp)]
      exact .inr (Nat.zero_le _)
    · rw [hok, drain_of_stop (by simp)]
      exact .inl rfl
  · rw [drain_of_stop hgo]
    exact .inr (Nat.not_lt.mp fun hlt => hgo ⟨hlt, h.alive⟩)

/-- Two rounds are enough: what is left fits the buffer, if the writer is not broken. -/
theorem Holds.drain_fits (h : w.Holds base data) (p : List UInt8) :
    (Writer.drain 2 w p).1.failed = true ∨
    (Writer.drain 2 w p).2.length ≤ (Writer.drain 2 w p).1.available := by
  by_cases hbuf : w.buf = []
  · exact h.drain_fits_of_nil hbuf 1 p
  by_cases hgo : w.available < p.length ∧ w.failed = false
  · unfold Writer.drain
    rw [if_pos hgo, if_neg hbuf]
    rcases (h.put (p.take w.available)).flush with ⟨-, hw, hnil⟩ | ⟨-, hw⟩
    · exact hw.drain_fits_of_nil hnil 0 _
    · rw [drain_of_stop (by simp [hw.failed])]
      exact .inl hw.failed
  · rw [drain_of_stop hgo]
    exact .inr (Nat.not_lt.mp fun hlt => hgo ⟨hlt, h.alive⟩)

/-- **A write is taken whole, or it breaks the writer.** -/
theorem Holds.write (h : w.Holds base data) (p : List UInt8) :
    ((w.write p).1 = true ∧ (w.write p).2.Holds base (data ++ p)) ∨
      ((w.write p).1 = false ∧ (w.write p).2.Broken base (data ++ p)) := by
  have hfits := h.drain_fits p
  have hdrain := h.drain 2 p
  unfold Writer.write
  generalize Writer.drain 2 w p = d at hfits hdrain ⊢
  obtain ⟨w', p'⟩ := d
  dsimp only at hfits hdrain
  rcases hdrain with ⟨q, rfl, hw⟩ | hw
  · have hp' := hfits.resolve_left (by simp [hw.alive])
    dsimp only
    rw [if_neg (by simp [hw.alive]), List.take_of_length_le hp']
    have hput := hw.put p'
    rw [List.append_assoc] at hput
    exact .inl ⟨rfl, hput⟩
  · dsimp only
    rw [if_pos hw.failed]
    exact .inr ⟨rfl, hw⟩

end Writer

end KvStore.Codec
