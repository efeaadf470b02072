/-
  The book of a writer.

  A writer numbers its writes and its flushes. A `Row` is a call with the level that it found
  and with what became of it. Which number a call has, and so whether it is refused, follows
  from the rows before it: `Booked` says that each row follows the schedule in this sense, and
  every call that a writer performs adds such a row (`perform_follows`).
-/
import StepLog.Sink.Basic

namespace StepLog

/-- A call at a level of the sink, and what became of it. -/
structure Row where
  level : Severity
  call : Call
  outcome : Outcome

namespace Row

/-- The gate lets the call through. -/
def passes (r : Row) : Bool := r.call.passes r.level

/-- The call asks for a write: it is let through and has text. -/
def writes (r : Row) : Bool := r.passes && !r.call.payload.isEmpty

def writeRefused (r : Row) : Bool :=
  match r.outcome.refusal with
  | some (.write _) => true
  | _ => false

/-- The call is let through and its write, if any, is not refused. -/
def flushes (r : Row) : Bool := r.passes && !r.writeRefused

/-- What became of the call is what the schedule says for write number `w` and flush
number `f`. -/
structure Follows (schedule : Schedule) (w f : Nat) (r : Row) : Prop where
  recorded : r.outcome.recorded = (r.writes && !schedule.write w)
  refusal : r.outcome.refusal =
    if r.writes && schedule.write w then some (.write w)
    else if r.passes && schedule.flush f then some (.flush f)
    else none

variable {schedule : Schedule} {w f : Nat} {r : Row}

theorem Follows.writeRefused_eq (h : r.Follows schedule w f) :
    r.writeRefused = (r.writes && schedule.write w) := by
  unfold writeRefused
  rw [h.refusal]
  split
  · next e =>
    split at e
    · next hw => rw [hw]
    · split at e <;> cases e
  · next e =>
    split at e
    · next hw => exact absurd rfl (e _)
    · next hw => exact (Bool.eq_false_iff.2 hw).symm

/-- Texts are recorded unless their write is refused. -/
theorem Follows.recorded_eq (h : r.Follows schedule w f) :
    r.outcome.recorded = (r.writes && !r.writeRefused) := by
  rw [h.recorded, h.writeRefused_eq]
  cases r.writes <;> rfl

/-- A refused flush leaves the text recorded. -/
theorem Follows.recorded_of_flush (h : r.Follows schedule w f) {i : Nat}
    (hi : r.outcome.refusal = some (.flush i)) :
    r.outcome.recorded = !r.call.payload.isEmpty := by
  have hpasses : r.passes = true := by
    have e := h.refusal
    rw [hi] at e
    split at e
    · cases e
    · split at e
      · next hf => exact (Bool.and_eq_true_iff.1 hf).1
      · cases e
  have hwrite : r.writeRefused = false := by
    unfold writeRefused
    rw [hi]
  rw [h.recorded_eq, hwrite, writes, hpasses]
  exact Bool.and_true _

end Row

/-- Every row follows the schedule, the first with write number `w` and flush number `f`. -/
def Booked (schedule : Schedule) : Nat → Nat → List Row → Prop
  | _, _, [] => True
  | w, f, r :: rows => r.Follows schedule w f ∧
    Booked schedule (w + if r.writes then 1 else 0) (f + if r.flushes then 1 else 0) rows

theorem booked_append {schedule : Schedule} {w f : Nat} {xs ys : List Row} :
    Booked schedule w f (xs ++ ys) ↔ Booked schedule w f xs ∧
      Booked schedule (w + xs.countP Row.writes) (f + xs.countP Row.flushes) ys := by
  induction xs generalizing w f with
  | nil => exact ⟨fun h => ⟨trivial, h⟩, And.right⟩
  | cons r xs ih =>
    have hw : ∀ n, w + n + xs.countP Row.writes = w + (xs.countP Row.writes + n) :=
      fun n => by omega
    have hf : ∀ n, f + n + xs.countP Row.flushes = f + (xs.countP Row.flushes + n) :=
      fun n => by omega
    rw [List.cons_append, Booked, Booked, ih, List.countP_cons, List.countP_cons, hw, hf, and_assoc]

/-- A row has the numbers that the rows before it leave. -/
theorem Booked.follows {schedule : Schedule} {w f : Nat} {before after : List Row} {r : Row}
    (h : Booked schedule w f (before ++ r :: after)) :
    r.Follows schedule (w + before.countP Row.writes) (f + before.countP Row.flushes) :=
  (booked_append.1 h).2.1

theorem Booked.exists_follows {schedule : Schedule} {w f : Nat} {rows : List Row}
    (h : Booked schedule w f rows) {r : Row} (hr : r ∈ rows) :
    ∃ w' f', r.Follows schedule w' f' := by
  obtain ⟨before, after, rfl⟩ := List.append_of_mem hr
  exact ⟨_, _, h.follows⟩

namespace Sink

/-- A writer after calls. -/
def after (sink : Sink) (rows : List Row) : Sink :=
  { sink with
    writes := sink.writes + rows.countP Row.writes
    flushes := sink.flushes + rows.countP Row.flushes }

theorem after_append (sink : Sink) (xs ys : List Row) :
    sink.after (xs ++ ys) = (sink.after xs).after ys := by
  unfold after
  dsimp only
  rw [List.countP_append, List.countP_append, Nat.add_assoc, Nat.add_assoc]

/-- What a writer does with a call: the gate stops it, it has no text to write, its write is
refused, or its text is written. -/
theorem perform_cases (schedule : Schedule) {sink : Sink} (h : sink.kind = .writer) (c : Call) :
    (c.passes sink.level = false ∧ sink.perform schedule c = (⟨false, none⟩, sink)) ∨
    (c.passes sink.level = true ∧ c.payload.isEmpty = true ∧
      sink.perform schedule c = sink.flush schedule false) ∨
    (c.passes sink.level = true ∧ c.payload.isEmpty = false ∧
      schedule.write sink.writes = true ∧
      sink.perform schedule c =
        (⟨false, some (.write sink.writes)⟩, { sink with writes := sink.writes + 1 })) ∨
    (c.passes sink.level = true ∧ c.payload.isEmpty = false ∧
      schedule.write sink.writes = false ∧
      sink.perform schedule c =
        flush schedule { sink with writes := sink.writes + 1 } true) := by
  unfold perform
  cases hpasses : c.passes sink.level with
  | false => exact .inl ⟨rfl, by rw [h]; rfl⟩
  | true =>
    refine .inr ?_
    cases hempty : c.payload.isEmpty with
    | true => exact .inl ⟨rfl, rfl, by simp [h]⟩
    | false =>
      refine .inr ?_
      cases hwrite : schedule.write sink.writes with
      | true => exact .inl ⟨rfl, rfl, rfl, by simp [h]⟩
      | false => exact .inr ⟨rfl, rfl, rfl, by simp [h]⟩

/-- A call adds a row that follows the schedule. -/
theorem perform_follows (schedule : Schedule) {sink : Sink} (h : sink.kind = .writer) (c : Call) :
    Row.Follows schedule sink.writes sink.flushes
        ⟨sink.level, c, (sink.perform schedule c).1⟩ ∧
      (sink.perform schedule c).2 = sink.after [⟨sink.level, c, (sink.perform schedule c).1⟩] := by
  rcases perform_cases schedule h c with
    ⟨hp, e⟩ | ⟨hp, he, e⟩ | ⟨hp, he, hw, e⟩ | ⟨hp, he, hw, e⟩
  · rw [e]
    refine ⟨⟨?_, ?_⟩, ?_⟩
    · simp [Row.writes, Row.passes, hp]
    · simp [Row.writes, Row.passes, hp]
    · simp [after, Row.writes, Row.flushes, Row.passes, hp]
  · rw [e]
    refine ⟨⟨?_, ?_⟩, ?_⟩
    · simp [flush, Row.writes, he]
    · simp [flush, Row.writes, Row.passes, hp, he]
    · simp [flush, after, Row.writes, Row.flushes, Row.passes, Row.writeRefused, hp, he]
  · rw [e]
    refine ⟨⟨?_, ?_⟩, ?_⟩
    · simp [hw]
    · simp [Row.writes, Row.passes, hp, he, hw]
    · simp [after, Row.writes, Row.flushes, Row.passes, Row.writeRefused, hp, he]
  · rw [e]
    refine ⟨⟨?_, ?_⟩, ?_⟩
    · simp [flush, Row.writes, Row.passes, hp, he, hw]
    · simp [flush, Row.passes, hp, hw]
    · simp [flush, after, Row.writes, Row.flushes, Row.passes, Row.writeRefused, hp, he]

end Sink

end StepLog
