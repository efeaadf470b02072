/-
  What a higher level keeps from a sink.

  Two runs of the same steps, one on a writer at a lower level and one on a writer at a higher
  level, stand in the same surroundings all along. The run at the higher level asks for fewer
  calls, since a printer asks for none where `info` is not enabled, and its gate lets fewer of
  them through; but what goes past the gate is the same in both (`quieted`).

  Main statement: raising the level of a writer removes texts from a session and nothing that is
  written past the gate, and a printer makes no call on a sink that does not enable `info`,
  whatever the sink is (`quieter_session`).
-/
import StepLog.Proofs.Session.AnySink
import StepLog.Proofs.Session.Book
import StepLog.Proofs.Session.PastGate
import StepLog.Proofs.Session.Unrefused

namespace StepLog

/-! ## Fewer calls -/

/-- Some of the calls in order, among them all that go past the gate. -/
structure Quieter (quiet loud : List Call) : Prop where
  sublist : quiet.Sublist loud
  raw : quiet.filter Call.isRaw = loud.filter Call.isRaw

namespace Quieter

theorem refl (calls : List Call) : Quieter calls calls := ⟨.refl calls, rfl⟩

theorem append {xs xs' ys ys' : List Call} (h : Quieter xs xs') (h' : Quieter ys ys') :
    Quieter (xs ++ ys) (xs' ++ ys') where
  sublist := h.sublist.append h'.sublist
  raw := by rw [List.filter_append, List.filter_append, h.raw, h'.raw]

/-- No call at all, instead of calls that all have to pass the gate. -/
theorem nil {calls : List Call} (h : ∀ c ∈ calls, c.isRaw = false) : Quieter [] calls where
  sublist := List.nil_sublist calls
  raw := (List.filter_eq_nil_iff.2 fun c hc => by rw [h c hc]; exact Bool.false_ne_true).symm

end Quieter

variable {low high : Severity}

theorem passes_mono (h : low ≤ high) {severity : Severity}
    (hp : severity.passes high = true) : severity.passes low = true := by
  unfold Severity.passes at hp ⊢
  rw [decide_eq_true_eq] at hp ⊢
  exact Nat.le_trans h hp

theorem records_mono (h : low ≤ high) (kind : SinkKind) {c : Call}
    (hc : kind.records high c = true) : kind.records low c = true := by
  cases kind with
  | trace => rfl
  | writer =>
    obtain ⟨target, payload⟩ := c
    cases target with
    | raw => exact hc
    | «at» severity =>
      obtain ⟨hpass, hne⟩ := Bool.and_eq_true_iff.1 hc
      exact Bool.and_eq_true_iff.2 ⟨passes_mono h hpass, hne⟩

theorem records_of_isRaw {c : Call} (h : c.isRaw = true) (kind : SinkKind) (level : Severity) :
    kind.records level c = kind.records low c := by
  obtain ⟨target, payload⟩ := c
  obtain rfl : target = .raw := by simpa [Call.isRaw] using h
  cases kind <;> rfl

/-- The gate at a higher level lets fewer calls through, and the same past it. -/
theorem Quieter.filter (h : low ≤ high) (kind : SinkKind) {quiet loud : List Call}
    (hq : Quieter quiet loud) :
    Quieter (quiet.filter (kind.records high)) (loud.filter (kind.records low)) where
  sublist := (hq.sublist.filter _).trans
    (List.monotone_filter_right loud fun _ hc => records_mono h kind hc)
  raw := by
    rw [List.filter_comm, hq.raw, List.filter_comm Call.isRaw]
    refine List.filter_congr fun c hc => records_of_isRaw (List.of_mem_filter hc) kind high

/-! ## Printing at two levels -/

/-- A printer asks for the same or, where `info` is not enabled, for nothing. -/
theorem quieter_gate (h : low ≤ high) {calls : List Call} (hraw : ∀ c ∈ calls, c.isRaw = false) :
    Quieter (if Severity.info.passes high then calls else [])
      (if Severity.info.passes low then calls else []) := by
  cases hhigh : Severity.info.passes high with
  | true => rw [if_pos rfl, if_pos (passes_mono h hhigh)]; exact .refl calls
  | false =>
    rw [if_neg Bool.false_ne_true]
    split
    · exact .nil hraw
    · exact .refl []

theorem quieter_script (h : low ≤ high) (p : Printer) (s : Surroundings) (label text : String) :
    Quieter (callsOf (p.script s high label text)) (callsOf (p.script s low label text)) := by
  unfold Printer.script
  rw [Printer.callsOf_scriptOn, Printer.callsOf_scriptOn]
  refine quieter_gate h fun c hc => ?_
  obtain ⟨line, -, rfl⟩ := List.mem_map.1 hc
  rfl

theorem quieter_params (h : low ≤ high) (p : Printer) (s : Surroundings) (ps : Params) :
    Quieter (callsOf (p.params s high ps)) (callsOf (p.params s low ps)) := by
  unfold Printer.params
  rw [Printer.callsOf_paramsOn, Printer.callsOf_paramsOn]
  refine quieter_gate h (List.forall_mem_singleton.2 ?_)
  split <;> rfl

/-! ## Two runs -/

/-- Two states in the same surroundings, with sinks of one kind at the lower and at the higher
level. -/
structure Raised (kind : SinkKind) (low high : Severity) (st st' : State) : Prop where
  surroundings : st.surroundings = st'.surroundings
  sinkLow : st.standing.2 = some (kind, low)
  sinkHigh : st'.standing.2 = some (kind, high)

/-- What two runs leave: fewer calls at the higher level, of which either sink records what it
takes, and raised states. -/
structure Quieted (kind : SinkKind) (low high : Severity) (r r' : List Entry × State) : Prop where
  attempted : Quieter (r'.1.flatMap Entry.attempted) (r.1.flatMap Entry.attempted)
  recordedLow : ∀ e ∈ r.1, e.recorded = e.attempted.filter (kind.records low)
  recordedHigh : ∀ e ∈ r'.1, e.recorded = e.attempted.filter (kind.records high)
  raised : Raised kind low high r.2 r'.2

theorem exists_sink_of_standing {st : State} {kind : SinkKind} {level : Severity}
    (h : st.standing.2 = some (kind, level)) :
    ∃ sink, st.sink = some sink ∧ sink.level = level := by
  obtain ⟨sink, hsink, hpair⟩ := Option.map_eq_some_iff.1 h
  exact ⟨sink, hsink, congrArg Prod.snd hpair⟩

theorem records_eq {st : State} {kind : SinkKind} {level : Severity}
    (h : st.standing.2 = some (kind, level)) : st.records = kind.records level := by
  unfold State.records
  rw [h]
  rfl

section
variable {kind : SinkKind}

theorem Quieted.append {es fs es' fs' : List Entry} {st₁ st₁' st₂ st₂' : State}
    (h : Quieted kind low high (es, st₁) (es', st₁'))
    (h' : Quieted kind low high (fs, st₂) (fs', st₂')) :
    Quieted kind low high (es ++ fs, st₂) (es' ++ fs', st₂') where
  attempted := by
    rw [List.flatMap_append, List.flatMap_append]
    exact h.attempted.append h'.attempted
  recordedLow := List.forall_mem_append.2 ⟨h.recordedLow, h'.recordedLow⟩
  recordedHigh := List.forall_mem_append.2 ⟨h.recordedHigh, h'.recordedHigh⟩
  raised := h'.raised

/-- One entry in either run. -/
theorem quieted_entry (k : EntryKind) {st st' : State} {r r' : List Event × State}
    (hst : Raised kind low high st st') (hq : Quieter (attempts r'.1) (attempts r.1))
    (hrec : recorded r.1 = (attempts r.1).filter st.records)
    (hrec' : recorded r'.1 = (attempts r'.1).filter st'.records)
    (hr : Raised kind low high r.2 r'.2) : Quieted kind low high (entry k r) (entry k r') where
  attempted := by
    show Quieter (attempts r'.1 ++ []) (attempts r.1 ++ [])
    rw [List.append_nil, List.append_nil]
    exact hq
  recordedLow := List.forall_mem_singleton.2 (by rw [← records_eq hst.sinkLow]; exact hrec)
  recordedHigh := List.forall_mem_singleton.2 (by rw [← records_eq hst.sinkHigh]; exact hrec')
  raised := hr

variable {p : Printer} {st st' : State}

theorem Raised.isSome (h : Raised kind low high st st') :
    st.sink.isSome = true ∧ st'.sink.isSome = true := by
  obtain ⟨sink, hsink, -⟩ := exists_sink_of_standing h.sinkLow
  obtain ⟨sink', hsink', -⟩ := exists_sink_of_standing h.sinkHigh
  rw [hsink, hsink']
  exact ⟨rfl, rfl⟩

theorem Raised.act (h : Raised kind low high st st') (as bs : List Action) :
    Raised kind low high (st.act .none as).2 (st'.act .none bs).2 where
  surroundings := by rw [act_surroundings, act_surroundings, h.surroundings]
  sinkLow := by rw [act_standing, h.sinkLow]
  sinkHigh := by rw [act_standing, h.sinkHigh]

/-- A step that prints. -/
theorem quieted_print (k : EntryKind) (attached : Bool) (h : Raised kind low high st st')
    {actions : Severity → List Action}
    (hq : Quieter (callsOf (actions high)) (callsOf (actions low))) :
    Quieted kind low high (entry k (Setting.print ⟨p, .none⟩ attached st actions))
      (entry k (Setting.print ⟨p, .none⟩ attached st' actions)) := by
  obtain ⟨sink, hsink, hlow⟩ := exists_sink_of_standing h.sinkLow
  obtain ⟨sink', hsink', hhigh⟩ := exists_sink_of_standing h.sinkHigh
  refine quieted_entry k h ?_ (recorded_print_none rfl attached st actions)
    (recorded_print_none rfl attached st' actions) ?_
  · rw [attempts_print, attempts_print, hsink, hsink']
    cases attached with
    | false => exact .refl []
    | true =>
      rw [← hlow, ← hhigh] at hq
      exact hq
  · unfold Setting.print
    rw [hsink, hsink']
    cases attached with
    | false => exact h
    | true => exact h.act _ _

/-- A step that makes a call of its own. -/
theorem quieted_direct (k : EntryKind) (attached : Bool) (h : Raised kind low high st st')
    (c : Call) :
    Quieted kind low high (entry k (if attached then st.direct .none c else ([], st)))
      (entry k (if attached then st'.direct .none c else ([], st'))) := by
  obtain ⟨hsink, hsink'⟩ := h.isSome
  refine quieted_entry k h ?_ (recorded_direct_none attached st c)
    (recorded_direct_none attached st' c) ?_
  · rw [attempts_attached .none attached hsink', attempts_attached .none attached hsink]
    exact .refl _
  · cases attached with
    | false => exact h
    | true =>
      rw [if_pos rfl, if_pos rfl, direct_state, direct_state]
      refine ⟨?_, ?_, ?_⟩
      · rw [call_surroundings, call_surroundings, h.surroundings]
      · rw [call_standing, h.sinkLow]
      · rw [call_standing, h.sinkHigh]

/-- Actions that both runs carry out, behind probes. -/
theorem quieted_act (k : EntryKind) (h : Raised kind low high st st')
    (questions : List CiQuestion) (actions : List Action) :
    Quieted kind low high
      (entry k (questions.map Event.probed ++ (st.act .none actions).1, (st.act .none actions).2))
      (entry k (questions.map Event.probed ++ (st'.act .none actions).1,
        (st'.act .none actions).2)) := by
  obtain ⟨hsink, hsink'⟩ := h.isSome
  refine quieted_entry k h ?_ ?_ ?_ (h.act actions actions)
  · rw [attempts_append, attempts_append, attempts_probed, attempts_act .none hsink',
      attempts_act .none hsink]
    exact .refl _
  · rw [recorded_append, attempts_append, attempts_probed, recorded_probed]
    exact recorded_act_none st actions
  · rw [recorded_append, attempts_append, attempts_probed, recorded_probed]
    exact recorded_act_none st' actions

end

/-- Steps that set no level run quieter at the higher level. -/
theorem quieted (p : Printer) {kind : SinkKind} (hle : low ≤ high) :
    TwoRuns ⟨p, .none⟩ ⟨p, .none⟩ (Raised kind low high) (Quieted kind low high)
      (fun _ step => ∀ change ∈ step.changes, change = none)
      fun _ steps => ∀ change ∈ Step.allChanges steps, change = none where
  inside hc _ change hmem := hc change (List.mem_append_left _ (List.mem_cons_of_mem _ hmem))
  detached hc := hc
  head hc := (List.forall_mem_append.1 hc).1
  tail hc := (List.forall_mem_append.1 hc).2
  states h := h.raised
  nil h := ⟨.refl [], nofun, nofun, h⟩
  append := Quieted.append
  quiet kind h := quieted_entry kind h (.refl []) rfl rfl h
  script attached h _ := by
    rw [h.surroundings]
    exact quieted_print .script attached h (quieter_script hle p _ _ _)
  params attached h _ := by
    rw [h.surroundings]
    exact quieted_print .params attached h (quieter_params hle p _ _)
  raw attached h _ := quieted_direct .raw attached h _
  writeAt attached h _ := quieted_direct .writeAt attached h _
  setLevel {st st' level} _ hc := nomatch hc (some level) (List.mem_singleton.2 rfl)
  change step h _ := ⟨congrArg step.change h.surroundings, h.sinkLow, h.sinkHigh⟩
  sink h := h.isSome.1.trans h.isSome.2.symm
  group hasSink name description h := by rw [h.surroundings]
  opened kind hasSink h _ := quieted_act kind h p.detectors.ciCalls _
  ended hasSink _ h := quieted_act (.ended _) h [] _

/-! ## What is written -/

/-- The calls that a session attempts on a new writer. -/
def Printer.askedAt (p : Printer) (s : Surroundings) (steps : List Step) (level : Severity) :
    List Call :=
  (Setting.session ⟨p, .none⟩ (some (.new .writer level)) s steps).flatMap Entry.attempted

/-- The calls that a new writer, which refuses nothing, records of a session. -/
def Printer.writtenAt (p : Printer) (s : Surroundings) (steps : List Step) (level : Severity) :
    List Call :=
  (Setting.session ⟨p, .none⟩ (some (.new .writer level)) s steps).flatMap Entry.recorded

/-- Calls with every marker among those that were asked for, and with every raw text of the
steps; an empty text needs no write. -/
structure HoldsRaw (steps : List Step) (asked calls : List Call) : Prop where
  markers : StepLog.markers calls = StepLog.markers asked
  texts : rawTexts calls = (Step.allRawTexts true steps).filter fun text => !text.isEmpty

theorem flatMap_recorded {kind : SinkKind} {level : Severity} {entries : List Entry}
    (h : ∀ e ∈ entries, e.recorded = e.attempted.filter (kind.records level)) :
    entries.flatMap Entry.recorded =
      (entries.flatMap Entry.attempted).filter (kind.records level) := by
  induction entries with
  | nil => rfl
  | cons e entries ih =>
    obtain ⟨he, hes⟩ := List.forall_mem_cons.1 h
    rw [List.flatMap_cons, List.flatMap_cons, List.filter_append, he, ih hes]

theorem markers_filter {calls : List Call} {keep : Call → Bool}
    (h : ∀ c ∈ calls, c.payload.marker?.isSome = true → keep c = true) :
    markers (calls.filter keep) = markers calls := by
  unfold markers
  rw [List.filterMap_filter]
  refine List.filterMap_congr fun c hc => ?_
  split
  · rfl
  · next hk => exact (Option.not_isSome_iff_eq_none.1 fun hm => hk (h c hc hm)).symm

/-- A writer records a call past the gate unless it is an empty text. -/
theorem records_raw (level : Severity) {c : Call} (h : c.isRaw = true) :
    SinkKind.writer.records level c = !c.payload.isEmpty := by
  obtain ⟨target, payload⟩ := c
  obtain rfl : target = .raw := by simpa [Call.isRaw] using h
  rfl

theorem rawTexts_records (level : Severity) (calls : List Call) :
    rawTexts (calls.filter (SinkKind.writer.records level)) =
      (rawTexts calls).filter fun text => !text.isEmpty := by
  unfold rawTexts
  rw [List.filter_comm, List.filter_filterMap, List.filterMap_filter]
  refine List.filterMap_congr fun c hc => ?_
  rw [records_raw level (List.of_mem_filter hc)]
  obtain ⟨target, text | m⟩ := c
  · cases h : text.isEmpty <;> simp [Payload.isEmpty, Payload.text?, Option.filter, h]
  · rfl

/-- What a writer records holds what goes past its gate. -/
theorem PastGate.holdsRaw (level : Severity) {steps : List Step} {asked : List Call}
    (h : PastGate (Step.allRawTexts true steps) asked) :
    HoldsRaw steps asked (asked.filter (SinkKind.writer.records level)) where
  markers := markers_filter fun c hc hm => by
    rw [records_raw level (h.markers c hc hm)]
    obtain ⟨target, text | m⟩ := c
    · cases hm
    · rfl
  texts := by rw [rawTexts_records, h.texts]

/-- The same markers are asked for at the higher level. -/
theorem Quieter.markers_eq {quiet loud : List Call} (h : Quieter quiet loud)
    (hm : ∀ c ∈ loud, c.payload.marker?.isSome = true → c.isRaw = true) :
    markers quiet = markers loud := by
  have hm' : ∀ c ∈ quiet, c.payload.marker?.isSome = true → c.isRaw = true :=
    fun c hc => hm c (h.sublist.subset hc)
  rw [← markers_filter hm', h.raw, markers_filter hm]

/-- A writer at a higher level records some of what it records at a lower level, in the same
order, among it each marker and each raw text of the session. On any sink that does not say
that `info` is enabled, scripts and parameters are printed without a call. -/
theorem quieter_session (p : Printer) (s : Surroundings) {low high : Severity} (hle : low ≤ high)
    {steps : List Step} (hsteps : ∀ change ∈ Step.allChanges steps, change = none) :
    (p.writtenAt s steps high).Sublist (p.writtenAt s steps low) ∧
      (p.writtenAt s steps high).filter Call.isRaw = (p.writtenAt s steps low).filter Call.isRaw ∧
      HoldsRaw steps (p.askedAt s steps low) (p.writtenAt s steps low) ∧
      HoldsRaw steps (p.askedAt s steps low) (p.writtenAt s steps high) ∧
      ∀ {σ : Type} (k : AnySink σ) (sink : σ), k.enabled sink .info = false →
        (∀ label text, k.script p s sink label text = ([], sink)) ∧
          ∀ ps, k.params p s sink ps = ([], sink) := by
  have hraised : Raised .writer low high ⟨some (.new .writer low), s⟩
    ⟨some (.new .writer high), s⟩ := ⟨rfl, rfl, rfl⟩
  obtain ⟨hasked, hlow, hhigh, -⟩ := (quieted p hle).runAll true steps hraised hsteps
  have hpast : ∀ level, PastGate (Step.allRawTexts true steps) (p.askedAt s steps level) :=
    fun level => pastGate_runAll ⟨p, .none⟩ true steps rfl
  have hwritten : p.writtenAt s steps low =
    (p.askedAt s steps low).filter (SinkKind.writer.records low) := flatMap_recorded hlow
  have hwritten' : p.writtenAt s steps high =
    (p.askedAt s steps high).filter (SinkKind.writer.records high) := flatMap_recorded hhigh
  rw [hwritten, hwritten']
  obtain ⟨hsublist, hraw⟩ := hasked.filter hle .writer
  refine ⟨hsublist, hraw, (hpast low).holdsRaw low, ?_,
    fun k sink h => k.print_of_not_enabled p s h⟩
  obtain ⟨hmarkers, htexts⟩ := (hpast high).holdsRaw high
  exact ⟨hmarkers.trans (hasked.markers_eq (hpast low).markers), htexts⟩

/-- A build at `info` and at `error`, with parameters that cannot be written. -/
theorem quieter_session_failing :
    let p : Printer := .new .never (Detectors.plain.withProvider .github)
    let s : Surroundings := ⟨.unset, false, ⟨false, false, false, true⟩⟩
    let steps : List Step :=
      [.group "build" "" .close
        [.script "" "make", .params (.ofList [("k", .failing "no")]), .raw "done\n",
          .writeAt .error "late\n"]]
    Severity.info ≤ Severity.error ∧ (∀ change ∈ Step.allChanges steps, change = none) ∧
      (p.writtenAt s steps .error).Sublist (p.writtenAt s steps .info) ∧
      p.writtenAt s steps .info =
        [⟨.raw, .marker (.githubOpen "build" "")⟩, ⟨.at .info, .text "  make\n"⟩,
          ⟨.at .warn, .text "WARN failed to marshal builtin: no\n"⟩, ⟨.raw, .text "done\n"⟩,
          ⟨.at .error, .text "late\n"⟩, ⟨.raw, .marker .githubClose⟩] ∧
      p.writtenAt s steps .error =
        [⟨.raw, .marker (.githubOpen "build" "")⟩, ⟨.raw, .text "done\n"⟩,
          ⟨.at .error, .text "late\n"⟩, ⟨.raw, .marker .githubClose⟩] := by
  intro p s steps
  have hle : Severity.info ≤ Severity.error := by decide
  have hsteps : ∀ change ∈ Step.allChanges steps, change = none := by decide +kernel
  exact ⟨hle, hsteps, (quieter_session p s hle hsteps).1, by decide +kernel, by decide +kernel⟩

end StepLog
