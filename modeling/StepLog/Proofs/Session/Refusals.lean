/-
  What refusals change, and what they leave alone.

  What a printer attempts depends on where it stands: the surroundings, the kind of the sink
  and its level. No call changes any of that, refused or not. So two runs of the same steps
  attempt the same calls and make the same remarks, whatever is refused in one and in the
  other (`sameOutline`). A refusal is only reported: every failed call of a printer
  leaves one notice (`reported_runAll`).
-/
import StepLog.Proofs.Session.Recorded
import StepLog.Proofs.Session.TwoRuns

namespace StepLog

/-! ## Failures -/

def Notice.failure? : Notice → Option (Purpose × Refusal)
  | failed purpose refusal => some (purpose, refusal)
  | _ => none

/-- The failed call that an event tells of. -/
def Event.failure? : Event → Option (Purpose × Refusal)
  | .notice n => n.failure?
  | _ => none

/-- The notice of an event, unless it tells of a failed call. -/
def Event.remark? : Event → Option Notice
  | .notice n => if n.failure?.isNone then some n else none
  | _ => none

def Event.refusal? : Event → Option Refusal
  | .called _ outcome => outcome.refusal
  | _ => none

/-- The failed calls that events tell of. -/
def failures (events : List Event) : List (Purpose × Refusal) := events.filterMap Event.failure?

/-- What else events tell. -/
def remarks (events : List Event) : List Notice := events.filterMap Event.remark?

/-- What the failed calls among events were refused with. -/
def refusals (events : List Event) : List Refusal := events.filterMap Event.refusal?

@[simp] theorem failures_append (xs ys : List Event) :
    failures (xs ++ ys) = failures xs ++ failures ys := List.filterMap_append

@[simp] theorem remarks_append (xs ys : List Event) :
    remarks (xs ++ ys) = remarks xs ++ remarks ys := List.filterMap_append

@[simp] theorem refusals_append (xs ys : List Event) :
    refusals (xs ++ ys) = refusals xs ++ refusals ys := List.filterMap_append

/-- The notice that a failed call leaves tells of it and of nothing else. -/
theorem notices_cases (purpose : Purpose) (outcome : Outcome) :
    failures (purpose.notices outcome) = outcome.refusal.toList.map (purpose, ·) ∧
      remarks (purpose.notices outcome) = [] ∧ refusals (purpose.notices outcome) = [] := by
  unfold Purpose.notices
  cases outcome.refusal with
  | none => exact ⟨rfl, rfl, rfl⟩
  | some refusal => exact ⟨rfl, rfl, rfl⟩

theorem refusals_called (c : Call) (outcome : Outcome) (events : List Event) :
    refusals (.called c outcome :: events) = outcome.refusal.toList ++ refusals events := by
  cases h : outcome.refusal with
  | none => simp [refusals, Event.refusal?, h]
  | some refusal => simp [refusals, Event.refusal?, h]

theorem events_probed (questions : List CiQuestion) :
    failures (questions.map Event.probed) = [] ∧ remarks (questions.map Event.probed) = [] ∧
      refusals (questions.map Event.probed) = [] := by
  simp [failures, remarks, refusals, Event.failure?, Event.remark?, Event.refusal?,
    List.filterMap_map]

/-- What a call is made for, from the entry that it stands in. -/
def EntryKind.purpose : EntryKind → Purpose
  | opened .. => .openGroup
  | ended _ => .closeGroup
  | _ => .print

/-- The session made the calls of the entry itself. -/
def EntryKind.isDirect : EntryKind → Bool
  | raw | writeAt => true
  | _ => false

/-- Every failed call of a printer is in one notice, and in no answer to its caller. -/
def Entry.Reported (e : Entry) : Prop :=
  e.kind.isDirect = false →
    failures e.events = (refusals e.events).map (e.kind.purpose, ·) ∧ e.refusal? = none

/-! ## Actions of a printer -/

/-- A notice about no failure, or a call made for `purpose` that passes at `level`. -/
def Action.Fits (purpose : Purpose) (level : Severity) : Action → Prop
  | .notice n => n.failure? = none
  | .call p c => p = purpose ∧ c.passes level = true

theorem fits_emit {severity level : Severity} (h : severity.passes level = true) (text : String) :
    (Printer.emit severity text).Fits .print level := ⟨rfl, h⟩

section
variable (p : Printer) (s : Surroundings) (level : Severity)

theorem fits_scriptLine (h : Severity.info.passes level = true) (shell line : String) :
    ∀ a ∈ p.scriptLine s shell line, a.Fits .print level := by
  unfold Printer.scriptLine
  split
  · split
    · exact List.forall_mem_singleton.2 (fits_emit h _)
    · exact List.forall_mem_cons.2 ⟨rfl, List.forall_mem_singleton.2 (fits_emit h _)⟩
  · exact List.forall_mem_singleton.2 (fits_emit h _)

theorem fits_script (label text : String) :
    ∀ a ∈ p.script s level label text, a.Fits .print level := by
  unfold Printer.script Printer.scriptOn
  split
  · exact fun a ha => absurd ha List.not_mem_nil
  · next h =>
    have h : Severity.info.passes level = true := by simpa using h
    refine List.forall_mem_cons.2 ⟨rfl, fun a ha => ?_⟩
    obtain ⟨line, -, ha⟩ := List.mem_flatMap.1 ha
    exact fits_scriptLine p s level h _ line a ha

theorem fits_params (ps : Params) : ∀ a ∈ p.params s level ps, a.Fits .print level := by
  unfold Printer.params Printer.paramsOn
  split
  · exact fun a ha => absurd ha List.not_mem_nil
  · next h =>
    have h : Severity.info.passes level = true := by simpa using h
    split
    · unfold Printer.paramsDocument
      split
      · split
        · exact List.forall_mem_singleton.2 (fits_emit h _)
        · exact List.forall_mem_cons.2 ⟨rfl, List.forall_mem_singleton.2 (fits_emit h _)⟩
      · exact List.forall_mem_singleton.2 (fits_emit h _)
    · have hwarn : Severity.warn.passes level = true := by revert h; cases level <;> decide
      exact List.forall_mem_cons.2 ⟨rfl, List.forall_mem_singleton.2 (fits_emit hwarn _)⟩

/-- The markers of a group bypass the gate. -/
theorem fits_group (hasSink : Bool) (name description : String) (ending : Ending) :
    (∀ a ∈ (p.openGroup s hasSink name description).1, a.Fits .openGroup level) ∧
      ∀ level' : Severity, ∀ a ∈ (p.openGroup s hasSink name description).2.finishBy ending,
        a.Fits .closeGroup level' := by
  rcases openGroup_cases p s hasSink name description with
    ⟨-, e⟩ | ⟨opening, closing, -, -, -, e⟩
  · rw [e, finishBy_inert]
    exact ⟨fun a ha => absurd ha List.not_mem_nil, fun _ a ha => absurd ha List.not_mem_nil⟩
  · rw [e, finishBy_marked]
    refine ⟨List.forall_mem_cons.2 ⟨rfl, List.forall_mem_singleton.2 ⟨rfl, rfl⟩⟩, fun level' => ?_⟩
    exact List.forall_mem_singleton.2 ⟨rfl, rfl⟩

end

/-- Carried out, they leave one notice for each refusal. -/
theorem failures_act (schedule : Schedule) (st : State) {purpose : Purpose} {level : Severity}
    {actions : List Action} (h : ∀ a ∈ actions, a.Fits purpose level) :
    failures (st.act schedule actions).1 =
      (refusals (st.act schedule actions).1).map (purpose, ·) := by
  induction actions generalizing st with
  | nil => rfl
  | cons a rest ih =>
    have ha := h a List.mem_cons_self
    have ih := fun st => ih st fun b hb => h b (List.mem_cons_of_mem a hb)
    cases a with
    | notice n =>
      have hn : n.failure? = none := ha
      have hhead : failures (.notice n :: (st.act schedule rest).1) =
          failures (st.act schedule rest).1 := List.filterMap_cons_none hn
      exact hhead.trans (ih st)
    | call p c =>
      obtain rfl : p = purpose := ha.1
      cases hs : st.sink with
      | none =>
        rw [act_call_of_no_sink schedule hs]
        exact ih st
      | some sink =>
        -- The notice of a call stands right behind it, so both lists grow at the same place.
        obtain ⟨hfailures, -, hrefusals⟩ := notices_cases p (sink.perform schedule c).1
        rw [act_call schedule hs, List.cons_append, refusals_called, refusals_append, hrefusals,
          List.nil_append, List.map_append, ← ih, ← hfailures]
        exact failures_append _ _

/-! ## Reports -/

theorem reported_print (x : Setting) (attached : Bool) (st : State) (kind : EntryKind)
    {actions : Severity → List Action}
    (h : ∀ level, ∀ a ∈ actions level, a.Fits kind.purpose level) :
    failures (x.print attached st actions).1 =
      (refusals (x.print attached st actions).1).map (kind.purpose, ·) := by
  unfold Setting.print
  split
  · split
    · rfl
    · exact failures_act x.schedule st (h _)
  · rfl

theorem refusal?_of_not_direct {e : Entry} (h : e.kind.isDirect = false) : e.refusal? = none := by
  unfold Entry.refusal?
  split
  · next hk => rw [hk] at h; cases h
  · next hk => rw [hk] at h; cases h
  · rfl

/-- Every failed call of a printer is reported. -/
def AllReported (entries : List Entry) : Prop := ∀ e ∈ entries, e.Reported

theorem AllReported.append {es fs : List Entry} (h : AllReported es) (h' : AllReported fs) :
    AllReported (es ++ fs) :=
  List.forall_mem_append.2 ⟨h, h'⟩

theorem reported_entry (kind : EntryKind) {r : List Event × State}
    (h : failures r.1 = (refusals r.1).map (kind.purpose, ·)) : AllReported (entry kind r).1 :=
  List.forall_mem_singleton.2 fun hdirect => ⟨h, refusal?_of_not_direct hdirect⟩

/-- An entry whose calls the session made itself. -/
theorem reported_direct (kind : EntryKind) (h : kind.isDirect = true) (r : List Event × State) :
    AllReported (entry kind r).1 :=
  List.forall_mem_singleton.2 fun hdirect => absurd (h.symm.trans hdirect) (by decide)

mutual

/-- A step reports what was refused of it. -/
theorem reported_run (x : Setting) (attached : Bool) : (step : Step) → (st : State) →
    AllReported (x.run attached st step).1
  | .script label text, st =>
    reported_entry .script (reported_print x attached st .script
      fun level => fits_script x.printer st.surroundings level label text)
  | .params ps, st =>
    reported_entry .params (reported_print x attached st .params
      fun level => fits_params x.printer st.surroundings level ps)
  | .raw _, _ => reported_direct .raw rfl _
  | .writeAt _ _, _ => reported_direct .writeAt rfl _
  | .setLevel _, _ => reported_entry .setLevel rfl
  | .setAnswers _, _ => reported_entry .setAnswers rfl
  | .setVariables _, _ => reported_entry .setVariables rfl
  | .group name description ending steps, st => by
    unfold Setting.run
    dsimp only
    obtain ⟨hopening, hending⟩ := fits_group x.printer st.surroundings .info
      (attached && st.sink.isSome) name description ending
    refine AllReported.append (AllReported.append (reported_entry _ ?_)
      (reported_runAll x attached steps _)) (reported_entry _ ?_)
    · obtain ⟨hfailures, -, hrefusals⟩ := events_probed x.printer.detectors.ciCalls
      rw [failures_append, refusals_append, hfailures, hrefusals]
      exact failures_act x.schedule st hopening
    · exact failures_act x.schedule _ (hending .info)
  | .detached step, st => reported_run x false step st

/-- Steps one after the other report what was refused of them. -/
theorem reported_runAll (x : Setting) (attached : Bool) : (steps : List Step) → (st : State) →
    AllReported (x.runAll attached st steps).1
  | [], _ => fun _ he => absurd he List.not_mem_nil
  | step :: steps, st =>
    (reported_run x attached step st).append (reported_runAll x attached steps _)

end

/-! ## Standing -/

/-- What the actions of a printer depend on. -/
def State.standing (st : State) : Surroundings × Option (SinkKind × Severity) :=
  (st.surroundings, st.sink.map fun sink => (sink.kind, sink.level))

theorem perform_standing (schedule : Schedule) (sink : Sink) (c : Call) :
    (sink.perform schedule c).2.kind = sink.kind ∧
      (sink.perform schedule c).2.level = sink.level := by
  unfold Sink.perform
  dsimp only
  split
  · exact ⟨rfl, rfl⟩
  · split
    · exact ⟨rfl, rfl⟩
    · split
      · exact ⟨rfl, rfl⟩
      · split
        · exact ⟨rfl, rfl⟩
        · exact ⟨rfl, rfl⟩

theorem call_standing (schedule : Schedule) (st : State) (c : Call) :
    (st.call schedule c).2.standing = st.standing := by
  unfold State.standing
  rw [call_surroundings]
  cases h : st.sink with
  | none => rw [call_of_no_sink schedule h, h]
  | some sink =>
    obtain ⟨hkind, hlevel⟩ := perform_standing schedule sink c
    rw [call_of_sink schedule h, Option.map_some, Option.map_some, hkind, hlevel]

theorem act_standing (schedule : Schedule) (st : State) (actions : List Action) :
    (st.act schedule actions).2.standing = st.standing :=
  act_invariant schedule (fun st' => st'.standing = st.standing)
    (fun st' c h => by rw [call_standing, h]) actions rfl

/-! ## Two runs -/

/-- What an entry shows of its step, but for what became of the calls. -/
def Entry.outline (e : Entry) : EntryKind × List Call × List Notice :=
  (e.kind, e.attempted, remarks e.events)

/-- Two results of doing the same from the same standing. -/
structure SameCourse (r r' : List Event × State) : Prop where
  attempts : attempts r.1 = attempts r'.1
  remarks : remarks r.1 = remarks r'.1
  standing : r.2.standing = r'.2.standing

/-- Two runs of the same steps from the same standing. -/
structure SameOutline (r r' : List Entry × State) : Prop where
  outline : r.1.map Entry.outline = r'.1.map Entry.outline
  standing : r.2.standing = r'.2.standing

theorem SameCourse.entry {r r' : List Event × State} (h : SameCourse r r') (kind : EntryKind) :
    SameOutline (entry kind r) (entry kind r') := by
  refine ⟨?_, h.standing⟩
  show [(kind, StepLog.attempts r.1, StepLog.remarks r.1)] =
    [(kind, StepLog.attempts r'.1, StepLog.remarks r'.1)]
  rw [h.attempts, h.remarks]

theorem SameOutline.append {es fs es' fs' : List Entry} {st₁ st₁' st₂ st₂' : State}
    (h : SameOutline (es, st₁) (es', st₁')) (h' : SameOutline (fs, st₂) (fs', st₂')) :
    SameOutline (es ++ fs, st₂) (es' ++ fs', st₂') := by
  refine ⟨?_, h'.standing⟩
  rw [List.map_append, List.map_append]
  exact congrArg₂ _ h.outline h'.outline

/-- The probes that a detection calls come before. -/
theorem SameCourse.probed {r r' : List Event × State} (h : SameCourse r r')
    (questions : List CiQuestion) :
    SameCourse (questions.map Event.probed ++ r.1, r.2)
      (questions.map Event.probed ++ r'.1, r'.2) := by
  obtain ⟨-, hremarks, -⟩ := events_probed questions
  refine ⟨?_, ?_, h.standing⟩
  · rw [attempts_append, attempts_append, h.attempts]
  · rw [remarks_append, remarks_append, hremarks, h.remarks]

/-- Every remark among the actions is made. -/
theorem remarks_act (schedule : Schedule) (st : State) (actions : List Action) :
    remarks (st.act schedule actions).1 = actions.filterMap fun
      | .notice n => Event.remark? (.notice n)
      | .call .. => none := by
  induction actions generalizing st with
  | nil => rfl
  | cons a rest ih =>
    cases a with
    | notice n =>
      show (Event.notice n :: (st.act schedule rest).1).filterMap Event.remark? = _
      rw [List.filterMap_cons, List.filterMap_cons, ← ih st]
      rfl
    | call purpose c =>
      cases hs : st.sink with
      | none =>
        rw [act_call_of_no_sink schedule hs]
        exact ih st
      | some sink =>
        obtain ⟨-, hremarks, -⟩ := notices_cases purpose (sink.perform schedule c).1
        rw [act_call schedule hs, List.cons_append]
        have happend := remarks_append (purpose.notices (sink.perform schedule c).1)
          (State.act schedule { st with sink := some (sink.perform schedule c).2 } rest).1
        rw [hremarks, List.nil_append] at happend
        exact happend.trans (ih _)

section
variable {st st' : State} (h : st.standing = st'.standing) (schedule schedule' : Schedule)
include h

theorem surroundings_of_standing : st.surroundings = st'.surroundings :=
  congrArg Prod.fst h

theorem isSome_of_standing : st.sink.isSome = st'.sink.isSome := by
  have hsome := congrArg (fun standing => standing.2.isSome) h
  simpa [State.standing] using hsome

theorem level_of_standing : st.sink.map Sink.level = st'.sink.map Sink.level := by
  have hlevel := congrArg (fun standing => standing.2.map Prod.snd) h
  simpa [State.standing, Function.comp_def] using hlevel

theorem standing_setLevel (level : Severity) :
    ({ st with sink := st.sink.map fun s => { s with level := level } } : State).standing =
      ({ st' with sink := st'.sink.map fun s => { s with level := level } } : State).standing := by
  have hkind := congrArg (fun standing => standing.2.map fun k => (k.1, level)) h
  unfold State.standing at hkind ⊢
  dsimp only at hkind ⊢
  rw [Option.map_map, Option.map_map] at hkind ⊢
  exact Prod.ext (surroundings_of_standing h) hkind

theorem standing_setSurroundings (change : Surroundings → Surroundings) :
    ({ st with surroundings := change st.surroundings } : State).standing =
      ({ st' with surroundings := change st'.surroundings } : State).standing :=
  Prod.ext (congrArg change (surroundings_of_standing h))
    (show st.standing.2 = st'.standing.2 by rw [h])

/-- Both runs carry out the same actions. -/
theorem sameCourse_act (actions : List Action) :
    SameCourse (st.act schedule actions) (st'.act schedule' actions) := by
  refine ⟨?_, by rw [remarks_act, remarks_act], by rw [act_standing, act_standing, h]⟩
  have hsome := isSome_of_standing h
  cases hs : st.sink with
  | none =>
    have hs' : st'.sink = none := by
      rw [hs] at hsome
      exact Option.not_isSome_iff_eq_none.1 (by rw [← hsome]; decide)
    rw [attempts_act_of_no_sink schedule hs, attempts_act_of_no_sink schedule' hs']
  | some sink =>
    rw [hs] at hsome
    rw [attempts_act schedule (by rw [hs]; rfl), attempts_act schedule' hsome.symm]

/-- A step that prints: its actions depend on the level of the sink. -/
theorem sameCourse_print (p : Printer) (attached : Bool) (actions : Severity → List Action) :
    SameCourse (Setting.print ⟨p, schedule⟩ attached st actions)
      (Setting.print ⟨p, schedule'⟩ attached st' actions) := by
  have hlevel := level_of_standing h
  unfold Setting.print
  cases attached with
  | false => exact ⟨rfl, rfl, h⟩
  | true =>
    rw [if_pos rfl, if_pos rfl]
    cases hs : st.sink with
    | none =>
      rw [hs] at hlevel
      rw [Option.map_eq_none_iff.1 hlevel.symm]
      exact ⟨rfl, rfl, h⟩
    | some sink =>
      rw [hs] at hlevel
      obtain ⟨sink', hs', hlevel'⟩ := Option.map_eq_some_iff.1 hlevel.symm
      rw [hs']
      dsimp only
      rw [hlevel']
      exact sameCourse_act h schedule schedule' _

/-- A call that the session makes itself. -/
theorem sameCourse_direct (attached : Bool) (c : Call) :
    SameCourse (if attached then st.direct schedule c else ([], st))
      (if attached then st'.direct schedule' c else ([], st')) := by
  have hremarks : ∀ (schedule : Schedule) (st : State), remarks (st.direct schedule c).1 = [] := by
    intro schedule st
    unfold State.direct
    split <;> rfl
  cases attached with
  | false => exact ⟨rfl, rfl, h⟩
  | true =>
    rw [if_pos rfl, if_pos rfl]
    refine ⟨?_, by rw [hremarks, hremarks], ?_⟩
    · rw [attempts_direct, attempts_direct, isSome_of_standing h]
    · rw [direct_state, direct_state, call_standing, call_standing, h]

end

/-- Runs of a printer from the same standing show the same, whatever is refused in either. -/
theorem sameOutline (p : Printer) (schedule schedule' : Schedule) :
    TwoRuns ⟨p, schedule⟩ ⟨p, schedule'⟩ (fun st st' => st.standing = st'.standing) SameOutline
      (fun _ _ => True) fun _ _ => True where
  inside _ _ := trivial
  detached _ := trivial
  head _ := trivial
  tail _ := trivial
  states h := h.standing
  nil h := ⟨rfl, h⟩
  append := SameOutline.append
  quiet kind h := ⟨rfl, h⟩
  script attached h _ := by
    rw [surroundings_of_standing h]
    exact (sameCourse_print h schedule schedule' p attached _).entry .script
  params attached h _ := by
    rw [surroundings_of_standing h]
    exact (sameCourse_print h schedule schedule' p attached _).entry .params
  raw attached h _ := (sameCourse_direct h schedule schedule' attached _).entry .raw
  writeAt attached h _ := (sameCourse_direct h schedule schedule' attached _).entry .writeAt
  setLevel h _ := standing_setLevel h _
  change step h _ := standing_setSurroundings h step.change
  sink h := isSome_of_standing h
  group hasSink name description h := by rw [surroundings_of_standing h]
  opened kind hasSink h _ :=
    ((sameCourse_act h schedule schedule' _).probed p.detectors.ciCalls).entry kind
  ended hasSink _ h := (sameCourse_act h schedule schedule' _).entry (.ended _)

end StepLog
