/-
  Printed content forms no commands.

  A CI system takes a line that begins with two colons for a command, a closing marker for
  instance. `Harmless` text consists of whole lines, none of which begins with a colon. Each
  call that prints a script or a document has harmless text, in color or not, also where a
  lexer refuses its text.

  Main statement: in every session, whatever else its steps write and whatever is refused,
  the text that scripts and parameters leave is harmless, and none of its colons begins a
  line of the log (`harmless_contents`).
-/
import StepLog.Proofs.Params.LineStarts
import StepLog.Proofs.Session.Recorded
import StepLog.Proofs.Shell.Lossless
import StepLog.Proofs.Yaml.Lossless

namespace StepLog

open Style (Guarded AtLineStart endsLine? endsLine?_append guarded_append guarded_of_not_mem)

/-- Whole lines, none of which begins with a colon. -/
structure Harmless (s : List Char) : Prop where
  whole : s = [] ∨ s.getLast? = some '\n'
  lines : ∀ line ∈ Text.splitAt '\n' s, line.head? ≠ some ':'

namespace Harmless

theorem guarded {s : List Char} (h : Harmless s) : Guarded true s := Style.guarded_true_iff.2 h.lines

theorem nil : Harmless [] := ⟨.inl rfl, Style.guarded_true_iff.1 trivial⟩

/-- Guarded text that ends with a line feed. -/
theorem of_guarded {s : List Char} (h : Guarded true s) (hends : endsLine? s = some true) :
    Harmless s := by
  refine ⟨.inr ?_, Style.guarded_true_iff.1 h⟩
  simpa [endsLine?] using hends

theorem append {s t : List Char} (h : Harmless s) (h' : Harmless t) : Harmless (s ++ t) := by
  refine ⟨?_, Style.guarded_true_iff.1 (guarded_append.2 ⟨h.guarded, h'.guarded.anywhere _⟩)⟩
  rcases h'.whole with rfl | ht
  · rw [List.append_nil]
    exact h.whole
  · rw [List.getLast?_append, ht]
    exact .inr rfl

theorem flatMap {α : Type} {f : α → List Char} {as : List α} (h : ∀ a ∈ as, Harmless (f a)) :
    Harmless (as.flatMap f) := by
  induction as with
  | nil => exact .nil
  | cons a as ih =>
    rw [List.flatMap_cons]
    exact (h a List.mem_cons_self).append (ih fun b hb => h b (List.mem_cons_of_mem a hb))

end Harmless

/-! ## Calls -/

/-- The call writes harmless text. -/
def Call.IsHarmless (c : Call) : Prop := ∃ text, c.payload = .text text ∧ Harmless text.toList

/-- What an entry left on the sink, its markers written at Unix time `time`. -/
def Entry.written (time : Int) (e : Entry) : List Char :=
  e.recorded.flatMap fun c => (c.payload.render time).toList

/-- A line with its margin, in front of which nothing stands. -/
theorem harmless_put {rendered : String} (h : Guarded false rendered.toList) :
    Harmless ("  " ++ rendered ++ "\n").toList := by
  rw [String.toList_append, String.toList_append]
  refine .of_guarded ?_ ?_
  · rw [guarded_append, guarded_append]
    exact ⟨⟨Style.guarded_of_colon_not_mem (by decide) true, h⟩, fun _ => by decide, trivial⟩
  · rw [endsLine?_append]
    rfl

theorem harmless_terminated {text : String} (h : Guarded true text.toList) :
    Harmless (Printer.terminated text).toList := by
  rw [Style.toList_terminated]
  split
  · next hends =>
    rw [List.append_nil]
    exact .of_guarded h hends
  · refine .of_guarded (guarded_append.2 ⟨h, fun _ => by decide, trivial⟩) ?_
    rw [endsLine?_append]
    rfl

section
variable {p : Printer} (s : Surroundings)

theorem harmless_scriptLine (hshell : p.shellLexer = Shell.lexer) (shell : String) {line : String}
    (hl : '\n' ∉ line.toList) : ∀ c ∈ callsOf (p.scriptLine s shell line), c.IsHarmless := by
  have hplain := harmless_put (guarded_of_not_mem hl)
  unfold Printer.scriptLine
  dsimp only
  split
  · rw [hshell]
    split
    · next tokens ht =>
      have hcut := (Shell.cuts_tokenize ht).chars
      refine List.forall_mem_singleton.2
        ⟨_, rfl, harmless_put (Style.guarded_paint .shell (p.theme s) ?_)⟩
      rw [hcut]
      exact guarded_of_not_mem hl
    · exact List.forall_mem_singleton.2 ⟨_, rfl, hplain⟩
  · exact List.forall_mem_singleton.2 ⟨_, rfl, hplain⟩

theorem harmless_script (hshell : p.shellLexer = Shell.lexer) (level : Severity)
    (label text : String) : ∀ c ∈ callsOf (p.script s level label text), c.IsHarmless := by
  unfold Printer.script Printer.scriptOn
  split
  · exact fun c hc => absurd hc List.not_mem_nil
  · intro c hc
    change c ∈ callsOf ((Text.linesOf text).flatMap (p.scriptLine s _)) at hc
    rw [callsOf_flatMap] at hc
    obtain ⟨line, hl, hc⟩ := List.mem_flatMap.1 hc
    obtain ⟨l, hmem, rfl⟩ := List.mem_map.1 hl
    refine harmless_scriptLine s hshell _ ?_ c hc
    rw [String.toList_ofList]
    exact Text.not_mem_of_mem_lines hmem

theorem harmless_paramsDocument (hyaml : p.yamlLexer = Yaml.lexer) {document : String}
    (hd : Guarded true document.toList) :
    ∀ c ∈ callsOf (p.paramsDocument s document), c.IsHarmless := by
  have hplain := harmless_terminated hd
  unfold Printer.paramsDocument
  split
  · rw [hyaml]
    split
    · next tokens ht =>
      have hcut := (Yaml.cuts_tokenize ht).chars
      refine List.forall_mem_singleton.2
        ⟨_, rfl, harmless_terminated (Style.guarded_paint .keyValue (p.theme s) ?_)⟩
      rw [hcut]
      exact hd
    · exact List.forall_mem_singleton.2 ⟨_, rfl, hplain⟩
  · exact List.forall_mem_singleton.2 ⟨_, rfl, hplain⟩

theorem harmless_params (hyaml : p.yamlLexer = Yaml.lexer) (level : Severity) {ps : Params}
    (hps : ∃ document, ps.document = .ok document) :
    ∀ c ∈ callsOf (p.params s level ps), c.IsHarmless := by
  obtain ⟨document, hd⟩ := hps
  unfold Printer.params Printer.paramsOn
  split
  · exact fun c hc => absurd hc List.not_mem_nil
  · rw [hd]
    exact harmless_paramsDocument s hyaml (Params.guarded_document hd)

end

/-! ## Entries -/

/-- The entry is that of a script or of parameters. -/
def Entry.isContent (e : Entry) : Bool := e.kind = .script || e.kind = .params

/-- What scripts and parameters left is harmless. -/
def ContentsHarmless (entries : List Entry) : Prop :=
  ∀ e ∈ entries, e.isContent → ∀ c ∈ e.recorded, c.IsHarmless

theorem harmless_print (x : Setting) (attached : Bool) (st : State) {actions : Severity → List Action}
    (h : ∀ level, ∀ c ∈ callsOf (actions level), c.IsHarmless) (kind : EntryKind) :
    ContentsHarmless (entry kind (x.print attached st actions)).1 := by
  intro e he _ c hc
  rw [List.mem_singleton.1 he] at hc
  have hc : c ∈ attempts (x.print attached st actions).1 := recorded_subset_attempts _ hc
  rw [attempts_print] at hc
  split at hc
  · cases hs : st.sink with
    | none =>
      rw [hs] at hc
      cases hc
    | some sink =>
      rw [hs] at hc
      exact h sink.level c hc
  · cases hc

/-- An entry of any other kind. -/
theorem harmless_entry (kind : EntryKind) (r : List Event × State)
    (h : (kind = .script || kind = .params : Bool) = false) :
    ContentsHarmless (entry kind r).1 := by
  intro e he hkind
  rw [List.mem_singleton.1 he] at hkind
  exact absurd (h.symm.trans hkind) Bool.false_ne_true

theorem ContentsHarmless.append {es fs : List Entry} (h : ContentsHarmless es)
    (h' : ContentsHarmless fs) : ContentsHarmless (es ++ fs) := by
  intro e he
  rcases List.mem_append.1 he with he | he
  · exact h e he
  · exact h' e he

theorem Harmless.written {e : Entry} (h : ∀ c ∈ e.recorded, c.IsHarmless) (time : Int) :
    Harmless (e.written time) := by
  refine .flatMap fun c hc => ?_
  obtain ⟨text, hpayload, htext⟩ := h c hc
  rw [hpayload]
  exact htext

/-! ## Steps -/

mutual

/-- All parameters that the step prints can be written. -/
def Step.Writable : Step → Prop
  | .params ps => ∃ document, ps.document = .ok document
  | .group _ _ _ steps => Step.AllWritable steps
  | .detached step => step.Writable
  | .script .. | .raw _ | .writeAt .. | .setLevel _ | .setAnswers _ | .setVariables _ => True

def Step.AllWritable : List Step → Prop
  | [] => True
  | step :: steps => step.Writable ∧ Step.AllWritable steps

end

/-- The printer has the lexers of this library. -/
structure Printer.OwnLexers (p : Printer) : Prop where
  shell : p.shellLexer = Shell.lexer
  yaml : p.yamlLexer = Yaml.lexer

variable {x : Setting}

mutual

/-- A step leaves harmless content. -/
theorem harmless_run (hx : x.printer.OwnLexers) (attached : Bool) : (step : Step) →
    step.Writable → (st : State) → ContentsHarmless (x.run attached st step).1
  | .script label text, _, st =>
    harmless_print x attached st
      (fun level => harmless_script st.surroundings hx.shell level label text) .script
  | .params ps, hw, st =>
    harmless_print x attached st (fun level => harmless_params st.surroundings hx.yaml level hw) .params
  | .raw _, _, _ => harmless_entry .raw _ rfl
  | .writeAt _ _, _, _ => harmless_entry .writeAt _ rfl
  | .setLevel _, _, _ => harmless_entry .setLevel _ rfl
  | .setAnswers _, _, _ => harmless_entry .setAnswers _ rfl
  | .setVariables _, _, _ => harmless_entry .setVariables _ rfl
  | .group name description ending steps, hw, st => by
    unfold Setting.run
    exact ((harmless_entry _ _ rfl).append (harmless_runAll hx attached steps hw _)).append
      (harmless_entry _ _ rfl)
  | .detached step, hw, st => harmless_run hx false step hw st

/-- Steps one after the other leave harmless content. -/
theorem harmless_runAll (hx : x.printer.OwnLexers) (attached : Bool) : (steps : List Step) →
    Step.AllWritable steps → (st : State) → ContentsHarmless (x.runAll attached st steps).1
  | [], _, _ => fun _ he => absurd he List.not_mem_nil
  | step :: steps, hw, st =>
    (harmless_run hx attached step hw.1 st).append (harmless_runAll hx attached steps hw.2 _)

end

/-- What any scripts and parameters of a session leave, one after the other, consists of whole
lines, none of which begins with a colon. Whatever the log holds in front of such a text, none
of its colons comes to stand at the beginning of a line. -/
theorem harmless_contents (hx : x.printer.OwnLexers) (attached : Bool) (st : State)
    {steps : List Step} (hw : Step.AllWritable steps) (time : Int) :
    (∀ es ⊆ (x.runAll attached st steps).1, (∀ e ∈ es, e.isContent) →
        Harmless (es.flatMap (Entry.written time))) ∧
      ∀ e ∈ (x.runAll attached st steps).1, e.isContent → ∀ before front back,
        e.written time = front ++ ':' :: back → ¬ AtLineStart (before ++ front) := by
  have hall := harmless_runAll hx attached steps hw st
  constructor
  · intro es hes hcontent
    exact .flatMap fun e he => .written (hall e (hes he) (hcontent e he)) time
  · intro e he hcontent before front back hsplit
    exact (Harmless.written (hall e he hcontent) time).guarded.not_atLineStart hsplit before

/-- A script and a parameter that try to close the group around them. -/
theorem harmless_contents_endgroup :
    let x : Setting := ⟨.new .never (Detectors.plain.withProvider .github), .none⟩
    let st : State := ⟨some (.new .writer .info), ⟨.unset, false, ⟨false, false, false, true⟩⟩⟩
    let steps : List Step :=
      [.group "build" "" .close
        [.script "" "::endgroup::", .params (.ofList [("k", .text "\n::endgroup::")])]]
    x.printer.OwnLexers ∧ Step.AllWritable steps ∧
      ((x.runAll true st steps).1.map fun e => String.ofList (e.written 0)) =
        ["::group::build\n", "  ::endgroup::\n", "with:\n  k: |-\n\n    ::endgroup::\n",
          "::endgroup::\n"] ∧
      Harmless (((x.runAll true st steps).1.filter Entry.isContent).flatMap (Entry.written 0)) := by
  intro x st steps
  have hw : Step.AllWritable steps := ⟨⟨trivial, ⟨_, rfl⟩, trivial⟩, trivial⟩
  have hx : x.printer.OwnLexers := ⟨rfl, rfl⟩
  refine ⟨hx, hw, by decide +kernel, ?_⟩
  exact (harmless_contents hx true st hw 0).1 _ (List.filter_subset_self _)
    fun e he => List.of_mem_filter he

end StepLog
