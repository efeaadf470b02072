/-
  What a buffer holds.

  Which texts pass the gate of a buffer can be told from what was done with it, without running it:
  the level in force at a step is the last one that was set before (`inForce`), and a step passes
  its text or not by that level alone (`passed`). One step keeps the bytes the UTF-8 form of
  the texts that have passed (`Holds.step`), so a run does (`holds_run`), and what the buffer
  shows never needs a replacement character. Main statement: `contents_run`.
-/
import StepLog.Sink.Buffer
import Mathlib.Data.List.Basic
import Mathlib.Data.List.Induction

namespace StepLog

theorem Text.encode_append (s t : String) : encode (s ++ t) = encode s ++ encode t := by
  unfold encode
  rw [String.toUTF8_eq_toByteArray, String.toByteArray_append, ByteArray.toList_data_append]
  rfl

namespace BufferStep

def level? : BufferStep → Option Severity
  | setLevel level => some level
  | _ => none

/-- The level after some steps: the last one that was set, or the one at the start. -/
def inForce (level : Severity) (steps : List BufferStep) : Severity :=
  ((steps.filterMap level?).getLast?).getD level

/-- The text of a step, if it goes past the gate or is at least at the level. -/
def passing? (level : Severity) : BufferStep → Option String
  | setLevel _ => none
  | raw text => some text
  | writeAt severity text => if level ≤ severity then some text else none

/-- The texts that pass, each one by the level in force at its own step. -/
def passed (level : Severity) (steps : List BufferStep) : List String :=
  (List.range steps.length).filterMap fun i =>
    steps[i]?.bind (passing? (inForce level (steps.take i)))

variable (level : Severity)

theorem inForce_append_steps (before after : List BufferStep) :
    inForce level (before ++ after) = inForce (inForce level before) after := by
  unfold inForce
  rw [List.filterMap_append, List.getLast?_append, Option.getD_or]

theorem inForce_concat (steps : List BufferStep) (step : BufferStep) :
    inForce level (steps ++ [step]) = step.level?.getD (inForce level steps) := by
  rw [inForce_append_steps]
  cases step <;> rfl

theorem passed_concat (steps : List BufferStep) (step : BufferStep) :
    passed level (steps ++ [step]) =
      passed level steps ++ (step.passing? (inForce level steps)).toList := by
  unfold passed
  rw [List.length_append, List.length_singleton, List.range_succ, List.filterMap_append]
  congr 1
  · refine List.filterMap_congr fun i hi => ?_
    have hlt : i < steps.length := List.mem_range.1 hi
    rw [List.getElem?_append_left hlt, List.take_append_of_le_length (Nat.le_of_lt hlt)]
  · have hlast : (steps ++ [step])[steps.length]? = some step := List.getElem?_concat_length
    rw [List.filterMap_cons, hlast, List.take_left' rfl, Option.bind_some]
    cases step.passing? (inForce level steps) <;> rfl

/-- Later steps take nothing back, and are gated by the level that they find. -/
theorem passed_append (before after : List BufferStep) :
    passed level (before ++ after) =
      passed level before ++ passed (inForce level before) after := by
  induction after using List.reverseRecOn with
  | nil =>
    rw [List.append_nil]
    exact (List.append_nil _).symm
  | append_singleton after step ih =>
    rw [← List.append_assoc, passed_concat, ih, inForce_append_steps, passed_concat,
      List.append_assoc]

theorem passed_setLevels (levels : List Severity) : passed level (levels.map setLevel) = [] := by
  induction levels using List.reverseRecOn with
  | nil => rfl
  | append_singleton levels last ih =>
    rw [List.map_append, List.map_singleton, passed_concat, ih]
    rfl

end BufferStep

open BufferStep (inForce passed)

namespace Buffer

/-- Steps one after the other. -/
def run (b : Buffer) (steps : List BufferStep) : Buffer := steps.foldl step b

theorem run_concat (b : Buffer) (steps : List BufferStep) (x : BufferStep) :
    b.run (steps ++ [x]) = (b.run steps).step x := by
  unfold run
  rw [List.foldl_append]
  rfl

/-- The buffer is as it should be after some steps from a level. -/
structure Holds (start : Severity) (steps : List BufferStep) (b : Buffer) : Prop where
  level : b.level = inForce start steps
  bytes : b.bytes = Text.encode (String.join (passed start steps))

variable {level : Severity} {steps : List BufferStep} {b : Buffer}

theorem level_step (b : Buffer) (x : BufferStep) : (b.step x).level = x.level?.getD b.level := by
  cases x with
  | setLevel level => rfl
  | raw text => rfl
  | writeAt severity text =>
    unfold step
    dsimp only
    split <;> rfl

theorem bytes_step (b : Buffer) (x : BufferStep) :
    (b.step x).bytes = b.bytes ++ Text.encode (String.join (x.passing? b.level).toList) := by
  have hnothing : b.bytes = b.bytes ++ Text.encode (String.join []) := (List.append_nil _).symm
  have htext : ∀ text, (b.append text).bytes = b.bytes ++ Text.encode (String.join [text]) := by
    intro text
    rw [String.join_cons, String.join_nil, String.append_empty]
    rfl
  cases x with
  | setLevel level => exact hnothing
  | raw text => exact htext text
  | writeAt severity text =>
    show (if decide (b.level ≤ severity) then b.append text else b).bytes = b.bytes ++
      Text.encode (String.join (if b.level ≤ severity then some text else none).toList)
    by_cases hpasses : b.level ≤ severity
    · rw [decide_eq_true hpasses, if_pos hpasses, if_pos rfl]
      exact htext text
    · rw [decide_eq_false hpasses, if_neg hpasses, if_neg Bool.false_ne_true]
      exact hnothing

theorem Holds.step (h : b.Holds level steps) (x : BufferStep) :
    (b.step x).Holds level (steps ++ [x]) where
  level := by rw [level_step, BufferStep.inForce_concat, h.level]
  bytes := by
    rw [bytes_step, h.bytes, h.level, ← Text.encode_append, ← String.join_append,
      BufferStep.passed_concat]

theorem holds_run (level : Severity) (steps : List BufferStep) :
    ((new level).run steps).Holds level steps := by
  induction steps using List.reverseRecOn with
  | nil => exact ⟨rfl, rfl⟩
  | append_singleton steps x ih =>
    rw [run_concat]
    exact ih.step x

theorem Holds.contents (h : b.Holds level steps) :
    b.contents = String.join (passed level steps) := by
  unfold Buffer.contents
  rw [h.bytes, Text.decodeLossy_encode]

/-- A buffer shows the texts that have passed, in their order and nothing else: its bytes are the
UTF-8 form of what it shows. What is done later adds the texts that pass at the levels
then in force, and levels that are set later add nothing and take nothing away. -/
theorem contents_run (level : Severity) (steps : List BufferStep) :
    ((new level).run steps).contents = String.join (passed level steps) ∧
    ((new level).run steps).bytes = Text.encode ((new level).run steps).contents ∧
    Text.decode? ((new level).run steps).bytes = some ((new level).run steps).contents ∧
    (∀ later, ((new level).run (steps ++ later)).contents =
      ((new level).run steps).contents ++ String.join (passed (inForce level steps) later)) ∧
    ∀ levels : List Severity,
      ((new level).run (steps ++ levels.map .setLevel)).contents =
        ((new level).run steps).contents := by
  have hbytes : ((new level).run steps).bytes = Text.encode ((new level).run steps).contents := by
    rw [(holds_run level steps).contents]
    exact (holds_run level steps).bytes
  have hlater : ∀ later, ((new level).run (steps ++ later)).contents =
      ((new level).run steps).contents ++ String.join (passed (inForce level steps) later) := by
    intro later
    rw [(holds_run level _).contents, (holds_run level _).contents, BufferStep.passed_append,
      String.join_append]
  refine ⟨(holds_run level steps).contents, hbytes, ?_, hlater, ?_⟩
  · conv_lhs => rw [hbytes]
    exact Text.decode?_encode _
  · intro levels
    rw [hlater, BufferStep.passed_setLevels, String.join_nil, String.append_empty]

/-- A text that was held back stays away when the level is lowered; one that has passed stays. -/
example :
    passed .warn [.writeAt .info "a", .writeAt .warn "b", .setLevel .debug, .writeAt .info "c",
      .setLevel .fatal, .raw "d", .writeAt .error "e"] = ["b", "c", "d"] := by
  decide

end Buffer

end StepLog
