/-
  Scripts, printed line by line.

  What a sink makes of actions depends on the calls among them alone (`AnySink.act_calls`), and
  calls that come in two parts are made in two parts (`AnySink.makeAll_append`). The calls of a
  script are one for each of its lines (`printsLine_script`), and a line is rendered from its own
  characters. So a script can be parted behind any line feed and printed in two (`script_by_lines`).
-/
import StepLog.Proofs.Printer.Calls
import StepLog.Proofs.Session.AnySink
import StepLog.Proofs.Text.Lines

namespace StepLog

/-! ## Calls on any sink -/

/-- The calls of events, each with what became of it. -/
def made (events : List Event) : List (Call × Outcome) :=
  events.filterMap fun
    | .called c outcome => some (c, outcome)
    | _ => none

@[simp] theorem made_called (c : Call) (outcome : Outcome) (events : List Event) :
    made (.called c outcome :: events) = (c, outcome) :: made events := rfl

@[simp] theorem made_notice (n : Notice) (events : List Event) :
    made (.notice n :: events) = made events := rfl

@[simp] theorem made_append (xs ys : List Event) : made (xs ++ ys) = made xs ++ made ys :=
  List.filterMap_append

@[simp] theorem made_notices (purpose : Purpose) (outcome : Outcome) :
    made (purpose.notices outcome) = [] := by
  unfold Purpose.notices
  cases outcome.refusal with
  | none => rfl
  | some refusal => rfl

namespace AnySink

variable {σ : Type} (k : AnySink σ)

/-- Makes calls one after the other: what becomes of each, and the sink behind them. -/
def makeAll : σ → List Call → List (Call × Outcome) × σ
  | sink, [] => ([], sink)
  | sink, c :: cs =>
    let first := k.perform sink c
    let others := makeAll first.2 cs
    ((c, first.1) :: others.1, others.2)

theorem makeAll_append (sink : σ) (cs ds : List Call) :
    k.makeAll sink (cs ++ ds) =
      let front := k.makeAll sink cs
      let back := k.makeAll front.2 ds
      (front.1 ++ back.1, back.2) := by
  induction cs generalizing sink with
  | nil => rfl
  | cons c cs ih =>
    rw [List.cons_append, makeAll, ih]
    rfl

/-- Actions make their calls; notices change nothing. -/
theorem act_calls (sink : σ) (actions : List Action) :
    made (k.act sink actions).1 = (k.makeAll sink (callsOf actions)).1 ∧
      (k.act sink actions).2 = (k.makeAll sink (callsOf actions)).2 := by
  induction actions generalizing sink with
  | nil => exact ⟨rfl, rfl⟩
  | cons a rest ih =>
    cases a with
    | notice n => exact ih sink
    | call purpose c =>
      obtain ⟨hmade, hsink⟩ := ih (k.perform sink c).2
      refine ⟨?_, hsink⟩
      unfold act
      dsimp only
      rw [List.cons_append, made_called, made_append, made_notices, List.nil_append, hmade]
      rfl

end AnySink

/-! ## Lines of scripts -/

variable (p : Printer) (s : Surroundings)

/-- The call that prints a line: at `info`, behind two spaces and with a line feed, the line as it
is, or its painted tokens if the printer colors and its lexer accepts the line. -/
inductive Printer.PrintsLine (line : String) : Call → Prop
  | verbatim :
    p.isColored s = false ∨ (∃ fault, p.shellLexer.tokenize line = .error fault) →
    PrintsLine line ⟨.at .info, .text ("  " ++ line ++ "\n")⟩
  | painted {tokens} : p.isColored s = true → p.shellLexer.tokenize line = .ok tokens →
    PrintsLine line ⟨.at .info, .text ("  " ++ Style.paint .shell (p.theme s) tokens ++ "\n")⟩

theorem printsLine_lineText (line : String) :
    p.PrintsLine s line (Printer.printed .info ("  " ++ p.lineText s line ++ "\n")) := by
  unfold Printer.lineText
  split
  · next hcolor =>
    split
    · next tokens htokens => exact .painted hcolor htokens
    · next fault hfault => exact .verbatim (.inr ⟨fault, hfault⟩)
  · next hcolor => exact .verbatim (.inl (Bool.not_eq_true _ ▸ hcolor))

/-- The calls that print a script. -/
def Printer.scriptCalls (text : String) : List Call :=
  (Text.linesOf text).map fun line => printed .info ("  " ++ p.lineText s line ++ "\n")

theorem printsLine_script (text : String) :
    List.Forall₂ (p.PrintsLine s) (Text.linesOf text) (p.scriptCalls s text) := by
  unfold Printer.scriptCalls
  induction Text.linesOf text with
  | nil => exact .nil
  | cons line lines ih => exact .cons (printsLine_lineText p s line) ih

theorem AnySink.script_calls {σ : Type} (k : AnySink σ) {sink : σ} (h : k.enabled sink .info = true)
    (label text : String) :
    made (k.script p s sink label text).1 = (k.makeAll sink (p.scriptCalls s text)).1 ∧
      (k.script p s sink label text).2 = (k.makeAll sink (p.scriptCalls s text)).2 := by
  have hcalls : callsOf (p.scriptOn s (k.enabled sink) label text) = p.scriptCalls s text := by
    rw [Printer.callsOf_scriptOn, if_pos h]
    rfl
  have hact := k.act_calls sink (p.scriptOn s (k.enabled sink) label text)
  rw [hcalls] at hact
  exact hact

theorem scriptCalls_append (a b : String) :
    p.scriptCalls s (a ++ "\n" ++ b) = p.scriptCalls s (a ++ "\n") ++ p.scriptCalls s b := by
  unfold Printer.scriptCalls
  rw [Text.linesOf_append, List.map_append]

/-- A script in two parts, whatever the labels are. -/
theorem AnySink.script_append {σ : Type} (k : AnySink σ) {sink : σ}
    (h : k.enabled sink .info = true) (label₁ label₂ label₃ a b : String)
    (hback : k.enabled (k.script p s sink label₂ (a ++ "\n")).2 .info = true) :
    made (k.script p s sink label₁ (a ++ "\n" ++ b)).1 =
        made (k.script p s sink label₂ (a ++ "\n")).1 ++
          made (k.script p s (k.script p s sink label₂ (a ++ "\n")).2 label₃ b).1 ∧
      (k.script p s sink label₁ (a ++ "\n" ++ b)).2 =
        (k.script p s (k.script p s sink label₂ (a ++ "\n")).2 label₃ b).2 := by
  obtain ⟨hmade, hsink⟩ := k.script_calls p s h label₁ (a ++ "\n" ++ b)
  obtain ⟨hfrontMade, hfrontSink⟩ := k.script_calls p s h label₂ (a ++ "\n")
  obtain ⟨hbackMade, hbackSink⟩ := k.script_calls p s hback label₃ b
  rw [scriptCalls_append, k.makeAll_append] at hmade hsink
  rw [hmade, hsink, hfrontMade, hbackMade, hbackSink, hfrontSink]
  exact ⟨rfl, rfl⟩

/-- On a sink with `info` enabled a script makes one call for each of its lines, whatever its label
is and whatever becomes of the calls. In parts that end behind a line feed it makes the calls that
the parts make by themselves. A line ends at a line feed, which one carriage return may precede;
behind the last line feed a line begins only if something stands there. -/
theorem script_by_lines {σ : Type} (k : AnySink σ) {sink : σ} (h : k.enabled sink .info = true) :
    (∀ text, ∃ calls, List.Forall₂ (p.PrintsLine s) (Text.linesOf text) calls ∧ ∀ label,
      let r := k.script p s sink label text
      made r.1 = (k.makeAll sink calls).1 ∧ r.2 = (k.makeAll sink calls).2) ∧
    (∀ label₁ label₂ label₃ a b,
      let whole := k.script p s sink label₁ (a ++ "\n" ++ b)
      let front := k.script p s sink label₂ (a ++ "\n")
      let back := k.script p s front.2 label₃ b
      k.enabled front.2 .info = true →
        made whole.1 = made front.1 ++ made back.1 ∧ whole.2 = back.2) ∧
    Text.linesOf "" = [] ∧ ∀ line : String, '\n' ∉ line.toList →
      (line ≠ "" → Text.linesOf line = [line]) ∧
      ∀ text, Text.linesOf (line ++ "\r\n" ++ text) = line :: Text.linesOf text ∧
        (line.toList.getLast? ≠ some '\r' →
          Text.linesOf (line ++ "\n" ++ text) = line :: Text.linesOf text) := by
  refine ⟨fun text => ?_, fun label₁ label₂ label₃ a b => ?_, rfl, fun line hline => ⟨?_, ?_⟩⟩
  · exact ⟨_, printsLine_script p s text, fun label => k.script_calls p s h label text⟩
  · exact k.script_append p s h label₁ label₂ label₃ a b
  · exact Text.linesOf_of_not_mem hline
  · exact fun text => ⟨Text.linesOf_carriageReturn hline text,
      fun hlast => Text.linesOf_lineFeed hline hlast text⟩

/-- A line that the lexer refuses, with a carriage return at its end, on a sink that refuses the
first write: the line behind it is painted and written. -/
theorem script_by_lines_refused :
    let p : Printer := .new .always .plain
    let s : Surroundings := ⟨.unset, false, ⟨false, false, false, true⟩⟩
    let k := Sink.anySink ⟨(· == 0), fun _ => false⟩
    let sink : Sink := .new .writer .info
    let whole := k.script p s sink "" ("echo \x00\r" ++ "\n" ++ "ls\n")
    let front := k.script p s sink "sh" ("echo \x00\r" ++ "\n")
    let back := k.script p s front.2 "bash" "ls\n"
    k.enabled sink .info = true ∧ k.enabled front.2 .info = true ∧
      '\n' ∉ "echo \x00".toList ∧ "echo \x00".toList.getLast? ≠ some '\r' ∧
      (made whole.1 = made front.1 ++ made back.1 ∧ whole.2 = back.2) ∧
      made whole.1 =
        [(⟨.at .info, .text "  echo \x00\n"⟩, ⟨false, some (.write 0)⟩),
          (⟨.at .info, .text "  \x1b[38;5;150mls\x1b[0m\n"⟩, ⟨true, none⟩)] := by
  intro p s k sink whole front back
  have henabled : k.enabled sink .info = true := by decide
  have hback : k.enabled front.2 .info = true := by decide +kernel
  obtain ⟨-, hparts, -⟩ := script_by_lines p s k henabled
  exact ⟨henabled, hback, by decide, by decide, hparts "" "sh" "bash" "echo \x00\r" "ls\n" hback,
    by decide +kernel⟩

end StepLog
