/-
  The warning in the place of parameters.

  An entry that cannot be written keeps the whole document from being written
  (`document_fault`). What is printed then ends with a line feed, and has one more for each that
  the message of the fault holds (`count_paramsWarning`). The messages of the library hold none, so
  the warning is one line unless the reason that a value gives for itself has several
  (`newline_mem_message_iff`).

  Main statement: where `info` is enabled the warning is the only call, and it is a single line
  exactly if the reason of the first faulty entry is (`warning_for_fault`).
-/
import StepLog.Proofs.Params.Entries

namespace StepLog

/-! ## Messages -/

/-- A line feed stands at the end of the text and nowhere else. -/
def SingleLine (text : String) : Prop :=
  text.toList.getLast? = some '\n' ∧ text.toList.count '\n' = 1

/-- Only the reason of a value can hold a line feed. -/
theorem newline_mem_message_iff (fault : MarshalFault) :
    '\n' ∈ fault.message.toList ↔
      ∃ reason, fault = .value (.refused reason) ∧ '\n' ∈ reason.toList := by
  have hfront : '\n' ∉ "failed to marshal builtin: ".toList := by decide
  have hmessage : ∀ text : String,
      '\n' ∈ ("failed to marshal builtin: " ++ text).toList ↔ '\n' ∈ text.toList := by
    intro text
    rw [String.toList_append, List.mem_append]
    exact or_iff_right hfront
  cases fault with
  | value fault =>
    cases fault with
    | refused reason =>
      refine (hmessage reason).trans ⟨fun h => ⟨reason, rfl, h⟩, ?_⟩
      rintro ⟨reason, ⟨⟩, h⟩
      exact h
    | emptyTag =>
      refine (hmessage _).trans (iff_of_false (by decide) ?_)
      rintro ⟨reason, ⟨⟩, -⟩
  | opening fault =>
    refine (hmessage _).trans (iff_of_false ?_ ?_)
    · cases fault with
      | nestedTags => decide
      | valueExpected => decide
      | documentExpected => decide
    · rintro ⟨reason, ⟨⟩, -⟩

variable (p : Printer) (s : Surroundings)

theorem not_mem_severityLabel (severity : Severity) (theme : Theme) (color : Bool) :
    '\n' ∉ (Style.severityLabel severity theme color).toList := by
  have hlabel : '\n' ∉ severity.label.toList := by
    cases severity with
    | debug => decide
    | info => decide
    | warn => decide
    | error => decide
    | fatal => decide
  unfold Style.severityLabel
  split
  · exact Style.not_mem_paintStretch _ hlabel
  · exact hlabel

/-- The line feeds of a warning are those of the message and the one at its end. -/
theorem count_paramsWarning (fault : MarshalFault) :
    (p.paramsWarning s fault).toList.getLast? = some '\n' ∧
      (p.paramsWarning s fault).toList.count '\n' = fault.message.toList.count '\n' + 1 := by
  have hlabel := List.count_eq_zero.2 (not_mem_severityLabel .warn (p.theme s) (p.isColored s))
  have hspace : " ".toList.count '\n' = 0 := rfl
  have hfeed : "\n".toList.count '\n' = 1 := rfl
  unfold Printer.paramsWarning
  simp only [String.toList_append]
  refine ⟨List.getLast?_concat, ?_⟩
  rw [List.count_append, List.count_append, List.count_append, hlabel, hspace, hfeed]
  omega

theorem singleLine_paramsWarning_iff (fault : MarshalFault) :
    SingleLine (p.paramsWarning s fault) ↔
      ∀ reason, fault = .value (.refused reason) → '\n' ∉ reason.toList := by
  obtain ⟨hlast, hcount⟩ := count_paramsWarning p s fault
  calc SingleLine (p.paramsWarning s fault)
    _ ↔ fault.message.toList.count '\n' = 0 := by
      unfold SingleLine
      rw [hcount, Nat.add_eq_right]
      exact and_iff_right hlast
    _ ↔ ¬ '\n' ∈ fault.message.toList := List.count_eq_zero
    _ ↔ _ := by
      rw [newline_mem_message_iff]
      simp only [not_exists, not_and]

/-! ## Faulty entries -/

namespace Params

/-- Lines of entries are lines of each of them. -/
theorem entry_of_body {es : List (String × Value)} {lines : List Char} (h : body es = .ok lines)
    {e : String × Value} (he : e ∈ es) : ∃ own, entry e.1 e.2 = .ok own := by
  induction es generalizing lines with
  | nil => cases he
  | cons e₀ es ih =>
    unfold body at h
    split at h
    · cases h
    · cases h
    · next hentry hbody =>
      rcases List.mem_cons.1 he with rfl | he
      · exact ⟨_, hentry⟩
      · exact ih hbody he

/-- An entry with a fault keeps the document from being written; the fault that is reported is that
of the first one. -/
theorem document_fault {ps : Params} {e : String × Value} (he : e ∈ ps.entries)
    {own : MarshalFault} (hown : entry e.1 e.2 = .error own) :
    ∃ fault, ps.document = .error fault ∧ Written ps.entries (.error fault) := by
  have hwritten := written_document ps
  cases hdocument : ps.document with
  | error fault => exact ⟨fault, rfl, hdocument ▸ hwritten⟩
  | ok document =>
    unfold Params.document at hdocument
    split at hdocument
    · next hempty =>
      rw [List.isEmpty_iff.1 hempty] at he
      cases he
    · cases hbody : body ps.entries with
      | error fault =>
        rw [hbody] at hdocument
        cases hdocument
      | ok lines =>
        obtain ⟨more, hmore⟩ := entry_of_body hbody he
        rw [hown] at hmore
        cases hmore

end Params

/-- An entry that cannot be written, at any place, has the parameters printed as one warning, on any
sink with `info` enabled. It ends with a line feed, and it is a single line unless the first fault
is a value's own reason with a line feed in it. -/
theorem warning_for_fault {σ : Type} (k : AnySink σ) {sink : σ} (h : k.enabled sink .info = true)
    {ps : Params} {e : String × Value} (he : e ∈ ps.entries) {own : MarshalFault}
    (hown : Params.entry e.1 e.2 = .error own) :
    ∃ fault text, ps.document = .error fault ∧ Params.Written ps.entries (.error fault) ∧
      attempts (k.params p s sink ps).1 = [Printer.printed .warn text] ∧
      text.toList.getLast? = some '\n' ∧
      text.toList.count '\n' = fault.message.toList.count '\n' + 1 ∧
      (SingleLine text ↔ ∀ reason, fault = .value (.refused reason) → '\n' ∉ reason.toList) := by
  obtain ⟨fault, hdocument, hwritten⟩ := Params.document_fault he hown
  obtain ⟨hlast, hcount⟩ := count_paramsWarning p s fault
  refine ⟨fault, p.paramsWarning s fault, hdocument, hwritten, ?_, hlast, hcount,
    singleLine_paramsWarning_iff p s fault⟩
  unfold AnySink.params
  rw [AnySink.attempts_act, Printer.callsOf_paramsOn, if_pos h, hdocument]

/-- A list that refuses in the middle of other parameters. The reason of a later one does not
matter. -/
theorem warning_for_fault_first :
    let p : Printer := .new .always .plain
    let s : Surroundings := ⟨.unset, false, ⟨false, false, false, true⟩⟩
    let own : MarshalFault := .value (.refused "callbacks cannot be represented")
    let e : String × Value :=
      ("on", .list [.int 1, .failing "callbacks cannot be represented"])
    let ps := Params.ofList [("text", .text "a\nb"), e, ("off", .failing "first\nsecond")]
    let sink : Sink := .new .writer .info
    let r := (Sink.anySink .none).params p s sink ps
    (Sink.anySink .none).enabled sink .info = true ∧ e ∈ ps.entries ∧
      Params.entry e.1 e.2 = .error own ∧
      (∃ fault text, ps.document = .error fault ∧ Params.Written ps.entries (.error fault) ∧
        attempts r.1 = [Printer.printed .warn text] ∧ text.toList.getLast? = some '\n' ∧
        text.toList.count '\n' = fault.message.toList.count '\n' + 1 ∧
        (SingleLine text ↔ ∀ reason, fault = .value (.refused reason) → '\n' ∉ reason.toList)) ∧
      attempts r.1 = [Printer.printed .warn
        "\x1b[38;5;179mWARN\x1b[0m failed to marshal builtin: callbacks cannot be represented\n"] := by
  intro p s own e ps sink r
  have henabled : (Sink.anySink .none).enabled sink .info = true := by decide
  have he : e ∈ ps.entries := .tail _ (.head _)
  have hown : Params.entry e.1 e.2 = .error own := rfl
  exact ⟨henabled, he, hown, warning_for_fault p s (Sink.anySink .none) henabled he hown,
    by decide +kernel⟩

/-- A reason in two lines makes a warning in two lines. -/
theorem warning_in_two_lines :
    let p : Printer := .new .never .plain
    let s : Surroundings := ⟨.unset, false, ⟨false, false, false, true⟩⟩
    let ps := Params.ofList [("k", .failing "first\nsecond")]
    let sink : Sink := .new .writer .info
    let text := "WARN failed to marshal builtin: first\nsecond\n"
    (Sink.anySink .none).enabled sink .info = true ∧
      Params.entry "k" (.failing "first\nsecond") = .error (.value (.refused "first\nsecond")) ∧
      attempts ((Sink.anySink .none).params p s sink ps).1 = [Printer.printed .warn text] ∧
      ¬ SingleLine text := by
  intro p s ps sink text
  refine ⟨by decide, rfl, by decide +kernel, fun h => ?_⟩
  exact absurd h.2 (by decide)

end StepLog
