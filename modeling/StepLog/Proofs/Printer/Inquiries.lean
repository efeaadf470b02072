/-
  Which questions a printer asks about the surroundings.

  The definitions of a printer take the surroundings as a whole. Here each of its procedures is an
  inquiry, which learns about the surroundings only by asking: what it does next, and whether it
  asks again, depends on the answers that it got. An inquiry therefore tells what is asked, how
  often and in which order, and that nothing else of the surroundings matters.

  Main results: the inquiries come to what the printer does (`result_script`, `result_params`,
  `result_group`). Opening a group asks for GitHub and then for GitLab, whatever the answers, the
  sink and the name are (`ciAsked_group`); printing never asks for either (`ciAsked_script`,
  `ciAsked_params`).
-/
import StepLog.Printer.Basic

namespace StepLog

/-- What can be asked about the surroundings. -/
inductive Question
  | ci (question : CiQuestion)
  | noColor
  | background
  | terminal

def Question.ci? : Question → Option CiQuestion
  | .ci question => some question
  | _ => none

/-- The answers of the probes, and of the terminal, in some surroundings. -/
def Detectors.answer (d : Detectors) (s : Surroundings) : Question → Bool
  | .ci .github => d.isGithub s
  | .ci .gitlab => d.isGitlab s
  | .noColor => d.refusesColor s
  | .background => d.isDark s
  | .terminal => s.terminal

/-- A procedure that asks questions, one after the other, and comes to a result. -/
inductive Inquiry (α : Type)
  | done (result : α)
  | ask (question : Question) (next : Bool → Inquiry α)

namespace Inquiry

variable {α β : Type}

def bind (x : Inquiry α) (f : α → Inquiry β) : Inquiry β :=
  match x with
  | done a => f a
  | ask question next => ask question fun answer => (next answer).bind f

instance : Monad Inquiry where
  pure := done
  bind := bind

/-- Asks, and comes to the answer. -/
def of (question : Question) : Inquiry Bool := ask question done

/-- One inquiry after the other, with all that they come to. -/
def gather (f : α → Inquiry (List β)) : List α → Inquiry (List β)
  | [] => pure []
  | a :: as => do
    let first ← f a
    let others ← gather f as
    pure (first ++ others)

section
variable (answer : Question → Bool)

def result : Inquiry α → α
  | done a => a
  | ask question next => (next (answer question)).result

/-- The questions about the CI system that are asked, in their order. -/
def ciAsked : Inquiry α → List CiQuestion
  | done _ => []
  | ask question next => question.ci?.toList ++ (next (answer question)).ciAsked

@[simp] theorem result_pure (a : α) : (pure a : Inquiry α).result answer = a := rfl

@[simp] theorem ciAsked_pure (a : α) : (pure a : Inquiry α).ciAsked answer = [] := rfl

@[simp] theorem result_of (question : Question) : (of question).result answer = answer question :=
  rfl

@[simp] theorem ciAsked_of (question : Question) :
    (of question).ciAsked answer = question.ci?.toList := by
  simp [of, ciAsked]

@[simp] theorem result_bind (x : Inquiry α) (f : α → Inquiry β) :
    (x >>= f).result answer = (f (x.result answer)).result answer := by
  induction x with
  | done a => rfl
  | ask question next ih => exact ih (answer question)

@[simp] theorem ciAsked_bind (x : Inquiry α) (f : α → Inquiry β) :
    (x >>= f).ciAsked answer = x.ciAsked answer ++ (f (x.result answer)).ciAsked answer := by
  induction x with
  | done a => rfl
  | ask question next ih =>
    show question.ci?.toList ++ (next (answer question) >>= f).ciAsked answer = _
    rw [ih, ← List.append_assoc]
    rfl

theorem result_gather (f : α → Inquiry (List β)) (as : List α) :
    (gather f as).result answer = as.flatMap fun a => (f a).result answer := by
  induction as with
  | nil => rfl
  | cons a as ih => simp [gather, ih]

theorem ciAsked_gather {f : α → Inquiry (List β)} (h : ∀ a, (f a).ciAsked answer = [])
    (as : List α) : (gather f as).ciAsked answer = [] := by
  induction as with
  | nil => rfl
  | cons a as ih => simp [gather, h, ih]

end

end Inquiry

open Inquiry (of)

/-! ## What each procedure asks -/

/-- Both questions are asked before either answer counts. -/
def CiEnvironment.inquiry : Inquiry CiEnvironment := do
  let github ← of (.ci .github)
  let gitlab ← of (.ci .gitlab)
  match github, gitlab with
  | true, _ => pure .gitHubActions
  | false, true => pure .gitLabCi
  | false, false => pure .none

/-- The refusal is asked for first, whatever was chosen. -/
def ColorChoice.inquiry (c : ColorChoice) : Inquiry Bool := do
  if ← of .noColor then pure false
  else match c with
    | .always => pure true
    | .never => pure false
    | .auto => of .terminal

def Theme.inquiry : Inquiry Theme := do
  if ← of .background then pure .dark else pure .light

namespace Printer

/-- One line of a script, for which color was decided before. -/
def scriptLineInquiry (p : Printer) (color : Bool) (shell line : String) :
    Inquiry (List Action) :=
  let put (text : String) := emit .info ("  " ++ text ++ "\n")
  if color then
    match p.shellLexer.tokenize line with
    | .ok tokens => do
      let theme ← Theme.inquiry
      pure [put (Style.paint .shell theme tokens)]
    | .error fault => pure [.notice (.plainScriptLine shell fault), put line]
  else pure [put line]

/-- Prints a script on a sink that says which severities are enabled, or on none. -/
def scriptInquiry (p : Printer) (sink : Option (Severity → Bool)) (label text : String) :
    Inquiry (List Action) :=
  match sink with
  | none => pure []
  | some enabled =>
    if !enabled .info then pure []
    else do
      let shell := if label.isEmpty then "shell" else label
      let color ← p.color.inquiry
      let lines ← Inquiry.gather (p.scriptLineInquiry color shell) (Text.linesOf text)
      pure (.notice (.printingScript shell color) :: lines)

/-- A document of parameters; color is asked for before the theme. -/
def documentInquiry (p : Printer) (document : String) : Inquiry (List Action) := do
  if ← p.color.inquiry then
    match p.yamlLexer.tokenize document with
    | .ok tokens => do
      let theme ← Theme.inquiry
      pure [emit .info (terminated (Style.paint .keyValue theme tokens))]
    | .error fault => pure [.notice (.plainParams fault), emit .info (terminated document)]
  else pure [emit .info (terminated document)]

/-- The warning; here the theme is asked for before color. -/
def warningInquiry (p : Printer) (fault : MarshalFault) : Inquiry (List Action) := do
  let theme ← Theme.inquiry
  let color ← p.color.inquiry
  let label := Style.severityLabel .warn theme color
  pure [.notice (.unwritableParams fault), emit .warn (label ++ " " ++ fault.message ++ "\n")]

/-- Prints parameters on a sink that says which severities are enabled, or on none. -/
def paramsInquiry (p : Printer) (sink : Option (Severity → Bool)) (ps : Params) :
    Inquiry (List Action) :=
  match sink with
  | none => pure []
  | some enabled =>
    if !enabled .info then pure []
    else match ps.document with
      | .ok document => p.documentInquiry document
      | .error fault => p.warningInquiry fault

/-- Opens a group. The CI system is asked for before anything else is looked at. -/
def groupInquiry (hasSink : Bool) (name description : String) :
    Inquiry (List Action × Group) := do
  let environment ← CiEnvironment.inquiry
  if !hasSink then pure ([], .inert)
  else if name.isEmpty then pure ([], .inert)
  else match Marker.pair? environment name description with
    | none => pure ([], .inert)
    | some (opening, closing) =>
      pure ([.notice (.openingGroup environment name), mark .openGroup opening], ⟨some closing⟩)

end Printer

/-! ## What they come to -/

section
variable (p : Printer) (s : Surroundings)

theorem ciAsked_ci (answer : Question → Bool) :
    CiEnvironment.inquiry.ciAsked answer = [.github, .gitlab] := by
  unfold CiEnvironment.inquiry
  cases hgithub : answer (.ci .github) with
  | true => simp [hgithub, Question.ci?]
  | false =>
    cases hgitlab : answer (.ci .gitlab) with
    | true => simp [hgithub, hgitlab, Question.ci?]
    | false => simp [hgithub, hgitlab, Question.ci?]

theorem result_ci (d : Detectors) :
    CiEnvironment.inquiry.result (d.answer s) = d.ciEnvironment s := by
  unfold CiEnvironment.inquiry Detectors.ciEnvironment
  cases hgithub : d.isGithub s with
  | true => simp [Detectors.answer, hgithub]
  | false =>
    cases hgitlab : d.isGitlab s with
    | true => simp [Detectors.answer, hgithub, hgitlab]
    | false => simp [Detectors.answer, hgithub, hgitlab]

@[simp] theorem ciAsked_color (c : ColorChoice) (answer : Question → Bool) :
    c.inquiry.ciAsked answer = [] := by
  unfold ColorChoice.inquiry
  cases hrefused : answer .noColor with
  | true => simp [hrefused, Question.ci?]
  | false => cases c <;> simp [hrefused, Question.ci?]

@[simp] theorem result_color : p.color.inquiry.result (p.detectors.answer s) = p.isColored s := by
  unfold ColorChoice.inquiry Printer.isColored ColorChoice.enabled
  cases hrefused : p.detectors.refusesColor s with
  | true => simp [Detectors.answer, hrefused]
  | false => cases p.color <;> simp [Detectors.answer, hrefused]

@[simp] theorem ciAsked_theme (answer : Question → Bool) : Theme.inquiry.ciAsked answer = [] := by
  unfold Theme.inquiry
  cases hdark : answer .background <;> simp [hdark, Question.ci?]

@[simp] theorem result_theme : Theme.inquiry.result (p.detectors.answer s) = p.theme s := by
  unfold Theme.inquiry Printer.theme Detectors.theme
  cases hdark : p.detectors.isDark s <;> simp [Detectors.answer, hdark]

/-! ## Printing -/

@[simp] theorem ciAsked_scriptLine (color : Bool) (shell line : String)
    (answer : Question → Bool) : (p.scriptLineInquiry color shell line).ciAsked answer = [] := by
  unfold Printer.scriptLineInquiry
  cases color with
  | false => rfl
  | true => cases p.shellLexer.tokenize line <;> simp

theorem result_scriptLine (shell line : String) :
    (p.scriptLineInquiry (p.isColored s) shell line).result (p.detectors.answer s) =
      p.scriptLine s shell line := by
  unfold Printer.scriptLineInquiry Printer.scriptLine
  cases p.isColored s with
  | false => rfl
  | true => cases p.shellLexer.tokenize line <;> simp

/-- A script is printed without a question about the CI system. -/
theorem ciAsked_script (sink : Option (Severity → Bool)) (label text : String)
    (answer : Question → Bool) : (p.scriptInquiry sink label text).ciAsked answer = [] := by
  unfold Printer.scriptInquiry
  cases sink with
  | none => rfl
  | some enabled =>
    cases henabled : enabled .info with
    | false => simp [henabled]
    | true => simp [henabled, Inquiry.ciAsked_gather]

theorem result_script (sink : Option (Severity → Bool)) (label text : String) :
    (p.scriptInquiry sink label text).result (p.detectors.answer s) =
      sink.elim [] fun enabled => p.scriptOn s enabled label text := by
  unfold Printer.scriptInquiry Printer.scriptOn
  cases sink with
  | none => rfl
  | some enabled =>
    cases henabled : enabled .info with
    | false => simp [henabled]
    | true => simp [henabled, Inquiry.result_gather, result_scriptLine]

@[simp] theorem ciAsked_document (document : String) (answer : Question → Bool) :
    (p.documentInquiry document).ciAsked answer = [] := by
  unfold Printer.documentInquiry
  cases hcolor : p.color.inquiry.result answer with
  | false => simp [hcolor]
  | true => cases htokens : p.yamlLexer.tokenize document <;> simp [hcolor]

@[simp] theorem result_document (document : String) :
    (p.documentInquiry document).result (p.detectors.answer s) = p.paramsDocument s document := by
  unfold Printer.documentInquiry Printer.paramsDocument
  cases hcolor : p.isColored s with
  | false => simp [hcolor]
  | true => cases htokens : p.yamlLexer.tokenize document <;> simp [hcolor]

/-- Nor are parameters, or the warning in their place. -/
theorem ciAsked_params (sink : Option (Severity → Bool)) (ps : Params)
    (answer : Question → Bool) : (p.paramsInquiry sink ps).ciAsked answer = [] := by
  unfold Printer.paramsInquiry
  cases sink with
  | none => rfl
  | some enabled =>
    cases henabled : enabled .info with
    | false => simp [henabled]
    | true => cases ps.document <;> simp [henabled, Printer.warningInquiry]

theorem result_params (sink : Option (Severity → Bool)) (ps : Params) :
    (p.paramsInquiry sink ps).result (p.detectors.answer s) =
      sink.elim [] fun enabled => p.paramsOn s enabled ps := by
  unfold Printer.paramsInquiry Printer.paramsOn
  cases sink with
  | none => rfl
  | some enabled =>
    cases henabled : enabled .info with
    | false => simp [henabled]
    | true => cases ps.document <;> simp [henabled, Printer.warningInquiry, Printer.paramsWarning]

/-! ## Groups -/

/-- A group is opened with one question for GitHub and one for GitLab, whatever comes of it. -/
theorem ciAsked_group (hasSink : Bool) (name description : String) (answer : Question → Bool) :
    (Printer.groupInquiry hasSink name description).ciAsked answer = [.github, .gitlab] := by
  unfold Printer.groupInquiry
  rw [Inquiry.ciAsked_bind, ciAsked_ci]
  cases hasSink with
  | false => rfl
  | true =>
    cases hname : name.isEmpty with
    | true => simp
    | false =>
      cases hpair : Marker.pair? (CiEnvironment.inquiry.result answer) name description with
      | none => simp
      | some pair => simp

theorem result_group (hasSink : Bool) (name description : String) :
    (Printer.groupInquiry hasSink name description).result (p.detectors.answer s) =
      p.openGroup s hasSink name description := by
  unfold Printer.groupInquiry Printer.openGroup
  rw [Inquiry.result_bind, result_ci]
  cases hasSink with
  | false => rfl
  | true =>
    cases hname : name.isEmpty with
    | true => rfl
    | false =>
      cases hpair : Marker.pair? (p.detectors.ciEnvironment s) name description with
      | none => simp [hpair]
      | some pair => simp [hpair]

end

end StepLog
