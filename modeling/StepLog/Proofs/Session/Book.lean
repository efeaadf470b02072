/-
  Sessions on a writer, by the book.

  The book of a session holds its entries, each with the level in force, which the steps alone
  decide. Its rows are the calls of the entries. Every run of steps on a writer keeps such a
  book: the rows follow the schedule, the flushes that the entries show are those of the rows
  so far, and the gate stops no call but that of a text that the session writes itself.

  Main statement: whatever is refused, the same is attempted, each failed call of a printer is
  reported once, and the book tells which texts are recorded and how often the writer was
  flushed (`refusals_session`).
-/
import StepLog.Proofs.Session.Refusals
import StepLog.Proofs.Sink.Book

namespace StepLog

/-! ## Levels -/

mutual

/-- For each entry of a step the level that it sets, if it sets one. -/
def Step.changes : Step → List (Option Severity)
  | .setLevel level => [some level]
  | .group _ _ _ steps => none :: Step.allChanges steps ++ [none]
  | .detached step => step.changes
  | .script .. | .params _ | .raw _ | .writeAt .. | .setAnswers _ | .setVariables _ => [none]

def Step.allChanges : List Step → List (Option Severity)
  | [] => []
  | step :: steps => step.changes ++ Step.allChanges steps

end

/-- The level after changes. -/
def levelAfter (level : Severity) (changes : List (Option Severity)) : Severity :=
  changes.foldl (fun level change => change.getD level) level

/-- The level in force at each of the changes. -/
def inForce : Severity → List (Option Severity) → List Severity
  | _, [] => []
  | level, change :: changes => change.getD level :: inForce (change.getD level) changes

theorem levelAfter_append (level : Severity) (xs ys : List (Option Severity)) :
    levelAfter level (xs ++ ys) = levelAfter (levelAfter level xs) ys := List.foldl_append

theorem inForce_append (level : Severity) (xs ys : List (Option Severity)) :
    inForce level (xs ++ ys) = inForce level xs ++ inForce (levelAfter level xs) ys := by
  induction xs generalizing level with
  | nil => rfl
  | cons change xs ih => exact congrArg (change.getD level :: ·) (ih _)

/-! ## Rows -/

/-- The calls of events at a level. -/
def rowsOf (level : Severity) (events : List Event) : List Row :=
  events.filterMap fun
    | .called c outcome => some ⟨level, c, outcome⟩
    | _ => none

@[simp] theorem rowsOf_append (level : Severity) (xs ys : List Event) :
    rowsOf level (xs ++ ys) = rowsOf level xs ++ rowsOf level ys := List.filterMap_append

@[simp] theorem rowsOf_notices (level : Severity) (purpose : Purpose) (outcome : Outcome) :
    rowsOf level (purpose.notices outcome) = [] := by
  unfold Purpose.notices
  cases outcome.refusal <;> rfl

@[simp] theorem rowsOf_probed (level : Severity) (questions : List CiQuestion) :
    rowsOf level (questions.map Event.probed) = [] := by
  simp [rowsOf, List.filterMap_map]

theorem mem_rowsOf {level : Severity} {events : List Event} {r : Row}
    (h : r ∈ rowsOf level events) : r.level = level ∧ r.call ∈ attempts events := by
  obtain ⟨event, hmem, h⟩ := List.mem_filterMap.1 h
  cases event with
  | called c outcome =>
    cases h
    exact ⟨rfl, List.mem_filterMap.2 ⟨_, hmem, rfl⟩⟩
  | notice n => cases h
  | probed question => cases h

theorem map_call_rowsOf (level : Severity) (events : List Event) :
    (rowsOf level events).map Row.call = attempts events := by
  rw [rowsOf, List.map_filterMap]
  refine congrArg (List.filterMap · events) (funext fun event => ?_)
  cases event <;> rfl

/-- The recorded calls are those of the rows that say so. -/
theorem recorded_eq_rowsOf (level : Severity) (events : List Event) :
    recorded events = ((rowsOf level events).filter fun r => r.outcome.recorded).map Row.call := by
  induction events with
  | nil => rfl
  | cons event events ih =>
    cases event with
    | called c outcome =>
      have hcons : rowsOf level (.called c outcome :: events) =
        ⟨level, c, outcome⟩ :: rowsOf level events := rfl
      rw [recorded_called, ih, hcons, List.filter_cons]
      dsimp only
      split <;> rfl
    | notice n => exact ih
    | probed question => exact ih

/-! ## Doing something on a writer -/

/-- The calls of a result follow the schedule, and the sink is what they leave. -/
structure Logged (schedule : Schedule) (sink : Sink) (r : List Event × State) : Prop where
  booked : Booked schedule sink.writes sink.flushes (rowsOf sink.level r.1)
  sink : r.2.sink = some (sink.after (rowsOf sink.level r.1))

section
variable {schedule : Schedule} {sink : Sink}

theorem logged_nil {st : State} (h : st.sink = some sink) : Logged schedule sink ([], st) :=
  ⟨trivial, h⟩

/-- A call in front of anything else. -/
theorem Logged.call (hk : sink.kind = .writer) (c : Call) {r : List Event × State}
    (h : Logged schedule (sink.perform schedule c).2 r) {notices : List Event}
    (hn : rowsOf sink.level notices = []) :
    Logged schedule sink
      (.called c (sink.perform schedule c).1 :: notices ++ r.1, r.2) := by
  obtain ⟨hfollows, hafter⟩ := Sink.perform_follows schedule hk c
  obtain ⟨hbooked, hsink⟩ := h
  -- The other rows are booked from the numbers that this call leaves.
  rw [hafter] at hbooked hsink
  have hrows : rowsOf sink.level (.called c (sink.perform schedule c).1 :: notices ++ r.1) =
      [⟨sink.level, c, (sink.perform schedule c).1⟩] ++ rowsOf sink.level r.1 := by
    rw [rowsOf_append]
    show (⟨sink.level, c, (sink.perform schedule c).1⟩ :: rowsOf sink.level notices) ++ _ = _
    rw [hn]
  refine ⟨?_, ?_⟩
  · rw [hrows, booked_append]
    exact ⟨⟨hfollows, trivial⟩, hbooked⟩
  · rw [hrows, Sink.after_append]
    exact hsink

theorem logged_act (hk : sink.kind = .writer) {st : State} (h : st.sink = some sink)
    (actions : List Action) : Logged schedule sink (st.act schedule actions) := by
  induction actions generalizing st sink with
  | nil => exact logged_nil h
  | cons a rest ih =>
    cases a with
    | notice n => exact ⟨(ih hk h).booked, (ih hk h).sink⟩
    | call purpose c =>
      have hkind := (perform_standing schedule sink c).1
      rw [act_call schedule h]
      exact (ih (hkind.trans hk) rfl).call hk c (rowsOf_notices ..)

theorem logged_print {x : Setting} (hx : x.schedule = schedule) (hk : sink.kind = .writer)
    (attached : Bool) {st : State} (h : st.sink = some sink) (actions : Severity → List Action) :
    Logged schedule sink (x.print attached st actions) := by
  unfold Setting.print
  rw [h, hx]
  cases attached with
  | false => exact logged_nil h
  | true => exact logged_act hk h _

theorem logged_direct (hk : sink.kind = .writer) (attached : Bool) {st : State}
    (h : st.sink = some sink) (c : Call) :
    Logged schedule sink (if attached then st.direct schedule c else ([], st)) := by
  cases attached with
  | false => exact logged_nil h
  | true =>
    have hcall : Logged schedule (sink.perform schedule c).2
        ([], { st with sink := some (sink.perform schedule c).2 }) := logged_nil rfl
    have hnone : rowsOf sink.level [] = [] := rfl
    have hlogged := hcall.call hk c hnone
    unfold State.direct
    rw [if_pos rfl, call_of_sink schedule h]
    exact hlogged

end

/-! ## Keeping the book -/

/-- The rows of a book. -/
def rows (book : List (Severity × Entry)) : List Row := book.flatMap fun b => rowsOf b.1 b.2.events

theorem rows_append (xs ys : List (Severity × Entry)) : rows (xs ++ ys) = rows xs ++ rows ys :=
  List.flatMap_append

/-- Each entry shows the flushes so far. -/
def Shown : Nat → List (Severity × Entry) → Prop
  | _, [] => True
  | f, b :: book => b.2.flushes = f + (rows [b]).countP Row.flushes ∧
    Shown (f + (rows [b]).countP Row.flushes) book

theorem shown_append {f : Nat} {xs ys : List (Severity × Entry)} :
    Shown f (xs ++ ys) ↔ Shown f xs ∧ Shown (f + (rows xs).countP Row.flushes) ys := by
  induction xs generalizing f with
  | nil => exact ⟨fun h => ⟨trivial, h⟩, And.right⟩
  | cons b xs ih =>
    have hrows : rows (b :: xs) = rows [b] ++ rows xs := rows_append [b] xs
    rw [List.cons_append, Shown, Shown, ih, hrows, List.countP_append, Nat.add_assoc, and_assoc]

/-- The gate lets the calls of the entry through, unless they are the session's own text at a
severity. -/
def GateOpen (b : Severity × Entry) : Prop :=
  b.2.kind ≠ .writeAt → ∀ r ∈ rowsOf b.1 b.2.events, r.passes = true

/-- The book of a run from `sink`, where the steps make these changes of the level. -/
structure Keeps (schedule : Schedule) (sink : Sink) (changes : List (Option Severity))
    (r : List Entry × State) (book : List (Severity × Entry)) : Prop where
  entries : book.map Prod.snd = r.1
  levels : book.map Prod.fst = inForce sink.level changes
  booked : Booked schedule sink.writes sink.flushes (rows book)
  shown : Shown sink.flushes book
  gate : ∀ b ∈ book, GateOpen b
  sink : r.2.sink = some { sink.after (rows book) with level := levelAfter sink.level changes }

/-- A book can be kept of the run. -/
def Kept (schedule : Schedule) (sink : Sink) (changes : List (Option Severity))
    (r : List Entry × State) : Prop := ∃ book, Keeps schedule sink changes r book

section
variable {schedule : Schedule} {sink : Sink}

theorem kept_nil {st : State} (h : st.sink = some sink) : Kept schedule sink [] ([], st) :=
  ⟨[], rfl, rfl, trivial, trivial, fun _ hb => absurd hb List.not_mem_nil, h⟩

theorem Kept.append {xs ys : List (Option Severity)} {es fs : List Entry} {st₁ st₂ : State}
    (h : Kept schedule sink xs (es, st₁))
    (h' : ∀ sink₁, st₁.sink = some sink₁ → sink₁.kind = sink.kind →
      Kept schedule sink₁ ys (fs, st₂)) :
    Kept schedule sink (xs ++ ys) (es ++ fs, st₂) := by
  obtain ⟨book, hentries, hlevels, hbooked, hshown, hgate, hsink⟩ := h
  -- The second book begins on the sink that the first one leaves, with its numbers and its level.
  obtain ⟨book', hentries', hlevels', hbooked', hshown', hgate', hsink'⟩ := h' _ hsink rfl
  refine ⟨book ++ book', ?_, ?_, ?_, ?_, ?_, ?_⟩
  · rw [List.map_append, hentries, hentries']
  · rw [List.map_append, hlevels, hlevels', inForce_append]
  · rw [rows_append, booked_append]
    exact ⟨hbooked, hbooked'⟩
  · rw [shown_append]
    exact ⟨hshown, hshown'⟩
  · exact List.forall_mem_append.2 ⟨hgate, hgate'⟩
  · rw [rows_append, Sink.after_append, levelAfter_append]
    exact hsink'

/-- One entry that sets no level. -/
theorem Logged.kept {r : List Event × State} (h : Logged schedule sink r) (kind : EntryKind)
    (hgate : kind ≠ .writeAt → ∀ row ∈ rowsOf sink.level r.1, row.passes = true) :
    Kept schedule sink [none] (entry kind r) := by
  have hrows : rows [(sink.level, ⟨kind, r.1, r.2.flushes⟩)] = rowsOf sink.level r.1 :=
    List.flatMap_singleton ..
  refine ⟨[(sink.level, ⟨kind, r.1, r.2.flushes⟩)], rfl, rfl, ?_, ?_, ?_, ?_⟩
  · rw [hrows]
    exact h.booked
  · refine ⟨?_, trivial⟩
    rw [hrows]
    show r.2.flushes = _
    rw [State.flushes, h.sink]
    rfl
  · exact List.forall_mem_singleton.2 hgate
  · rw [hrows]
    exact h.sink

/-- An entry without events. -/
theorem kept_quiet (kind : EntryKind) {st : State} (h : st.sink = some sink) :
    Kept schedule sink [none] (entry kind ([], st)) :=
  (logged_nil h).kept kind fun _ _ hr => absurd hr List.not_mem_nil

theorem kept_setLevel (level : Severity) {st : State} (h : st.sink = some sink) :
    Kept schedule sink [some level]
      (entry .setLevel ([], { st with sink := st.sink.map fun s => { s with level := level } })) := by
  refine ⟨[(level, ⟨.setLevel, [], sink.flushes⟩)], ?_, rfl, trivial, ⟨rfl, trivial⟩, ?_, ?_⟩
  · unfold entry State.flushes
    rw [h]
    rfl
  · exact List.forall_mem_singleton.2 fun _ _ hr => absurd hr List.not_mem_nil
  · unfold entry
    rw [h]
    rfl

/-- Calls of a printer pass the gate. -/
theorem passes_act {st : State} (h : st.sink = some sink) {purpose : Purpose}
    {actions : List Action} (ha : ∀ a ∈ actions, a.Fits purpose sink.level) :
    ∀ r ∈ rowsOf sink.level (st.act schedule actions).1, r.passes = true := by
  intro r hr
  obtain ⟨hlevel, hcall⟩ := mem_rowsOf hr
  rw [attempts_act schedule (by rw [h]; rfl)] at hcall
  obtain ⟨a, hmem, hac⟩ := List.mem_filterMap.1 hcall
  have hfits := ha a hmem
  cases a with
  | notice n => cases hac
  | call p c =>
    cases hac
    rw [Row.passes, hlevel]
    exact hfits.2

theorem kept_print {x : Setting} (hx : x.schedule = schedule) (hk : sink.kind = .writer)
    (attached : Bool) {st : State} (h : st.sink = some sink) (kind : EntryKind)
    {purpose : Purpose} {actions : Severity → List Action}
    (ha : ∀ a ∈ actions sink.level, a.Fits purpose sink.level) :
    Kept schedule sink [none] (entry kind (x.print attached st actions)) := by
  refine (logged_print hx hk attached h actions).kept kind fun _ => ?_
  unfold Setting.print
  rw [h, hx]
  cases attached with
  | false => exact fun r hr => absurd hr List.not_mem_nil
  | true => exact passes_act h ha

theorem kept_raw (hk : sink.kind = .writer) (attached : Bool) {st : State}
    (h : st.sink = some sink) (text : String) :
    Kept schedule sink [none]
      (entry .raw (if attached then st.direct schedule ⟨.raw, .text text⟩ else ([], st))) := by
  refine (logged_direct hk attached h _).kept .raw fun _ r hr => ?_
  have hcall := (mem_rowsOf hr).2
  cases attached with
  | false => cases hcall
  | true =>
    rw [if_pos rfl, attempts_direct, h] at hcall
    rw [Row.passes, List.mem_singleton.1 hcall]
    rfl

/-- A group, if a book can be kept of the steps inside it. -/
theorem kept_group {x : Setting} (hx : x.schedule = schedule) (hk : sink.kind = .writer)
    (attached : Bool) {st : State} (h : st.sink = some sink) (name description : String)
    (ending : Ending) (steps : List Step)
    (hsteps : ∀ {st₁ : State} {sink₁ : Sink}, st₁.sink = some sink₁ → sink₁.kind = .writer →
      Kept schedule sink₁ (Step.allChanges steps) (x.runAll attached st₁ steps)) :
    Kept schedule sink (Step.changes (.group name description ending steps))
      (x.run attached st (.group name description ending steps)) := by
  unfold Setting.run Step.changes
  dsimp only
  rw [hx]
  obtain ⟨hopening, hending⟩ := fits_group x.printer st.surroundings sink.level
    (attached && st.sink.isSome) name description ending
  generalize x.printer.openGroup st.surroundings (attached && st.sink.isSome) name description =
    group at hopening hending
  -- The probes that a detection calls are no calls on the sink.
  have hopened : Logged schedule sink
      (x.printer.detectors.ciCalls.map Event.probed ++ (st.act schedule group.1).1,
        (st.act schedule group.1).2) := by
    obtain ⟨hbooked, hsink⟩ := logged_act hk h group.1
    refine ⟨?_, ?_⟩
    · rw [rowsOf_append, rowsOf_probed]
      exact hbooked
    · rw [rowsOf_append, rowsOf_probed]
      exact hsink
  have hopened := hopened.kept (.opened group.2.isOpen (attached && st.sink.isSome)) fun _ => by
    rw [rowsOf_append, rowsOf_probed]
    exact passes_act h hopening
  refine Kept.append (Kept.append hopened fun sink₁ h₁ hk₁ => hsteps h₁ (hk₁.trans hk))
    fun sink₂ h₂ hk₂ => ?_
  exact (logged_act (hk₂.trans hk) h₂ _).kept (.ended ending) fun _ =>
    passes_act h₂ (hending sink₂.level)

end

mutual

/-- A book can be kept of a step. -/
theorem kept_run (x : Setting) (attached : Bool) : (step : Step) → {st : State} → {sink : Sink} →
    st.sink = some sink → sink.kind = .writer →
    Kept x.schedule sink step.changes (x.run attached st step)
  | .script label text, st, sink, h, hk =>
    kept_print rfl hk attached h .script
      (fits_script x.printer st.surroundings sink.level label text)
  | .params ps, st, sink, h, hk =>
    kept_print rfl hk attached h .params (fits_params x.printer st.surroundings sink.level ps)
  | .raw text, _, _, h, hk => kept_raw hk attached h text
  | .writeAt _ _, _, _, h, hk => (logged_direct hk attached h _).kept .writeAt (absurd rfl)
  | .setLevel level, _, _, h, _ => kept_setLevel level h
  | .setAnswers _, _, _, h, _ => by
    refine kept_quiet .setAnswers ?_
    exact h
  | .setVariables _, _, _, h, _ => by
    refine kept_quiet .setVariables ?_
    exact h
  | .group name description ending steps, _, _, h, hk =>
    kept_group rfl hk attached h name description ending steps
      fun h₁ hk₁ => kept_runAll x attached steps h₁ hk₁
  | .detached step, _, _, h, hk => kept_run x false step h hk

/-- A book can be kept of steps one after the other. -/
theorem kept_runAll (x : Setting) (attached : Bool) : (steps : List Step) → {st : State} →
    {sink : Sink} → st.sink = some sink → sink.kind = .writer →
    Kept x.schedule sink (Step.allChanges steps) (x.runAll attached st steps)
  | [], _, _, h, _ => kept_nil h
  | step :: steps, _, _, h, hk =>
    (kept_run x attached step h hk).append fun _ h₁ hk₁ =>
      kept_runAll x attached steps h₁ (hk₁.trans hk)

end

/-! ## Sessions -/

/-- The book of a session on a new writer. -/
structure WriterBook (schedule : Schedule) (level : Severity) (steps : List Step)
    (entries : List Entry) (book : List (Severity × Entry)) : Prop where
  /-- The entries in order, each with the level that the steps up to it have set. -/
  entries : book.map Prod.snd = entries
  levels : book.map Prod.fst = inForce level (Step.allChanges steps)
  /-- The rows of an entry are the calls that it attempted. -/
  attempted : ∀ b ∈ book, (rowsOf b.1 b.2.events).map Row.call = b.2.attempted
  /-- A call is refused if the schedule refuses the number that it has behind the calls before. -/
  follows : ∀ {before r after}, rows book = before ++ r :: after →
    r.Follows schedule (before.countP Row.writes) (before.countP Row.flushes)
  /-- Every text that is let through and not empty is recorded, unless its write is refused. -/
  recorded : ∀ b ∈ book, b.2.recorded =
    ((rowsOf b.1 b.2.events).filter fun r => r.writes && !r.writeRefused).map Row.call
  /-- The gate stops texts of the session's own and nothing else. -/
  gate : ∀ b ∈ book, GateOpen b
  /-- A refused flush leaves its text recorded. -/
  flushRefused : ∀ r ∈ rows book, ∀ i, r.outcome.refusal = some (.flush i) →
    r.outcome.recorded = !r.call.payload.isEmpty
  /-- There is a flush for each call that was let through and whose write was not refused. -/
  flushes : ∀ {before b after}, book = before ++ b :: after →
    b.2.flushes = (rows (before ++ [b])).countP Row.flushes

theorem recorded_of_follows {schedule : Schedule} {level : Severity} {events : List Event}
    (h : ∀ r ∈ rowsOf level events, ∃ w f, r.Follows schedule w f) :
    recorded events =
      ((rowsOf level events).filter fun r => r.writes && !r.writeRefused).map Row.call := by
  rw [recorded_eq_rowsOf level]
  refine congrArg (List.map Row.call) (List.filter_congr fun r hr => ?_)
  obtain ⟨w, f, hfollows⟩ := h r hr
  exact hfollows.recorded_eq

theorem Keeps.writerBook {schedule : Schedule} {level : Severity} {steps : List Step}
    {r : List Entry × State} {book : List (Severity × Entry)}
    (h : Keeps schedule (.new .writer level) (Step.allChanges steps) r book) :
    WriterBook schedule level steps r.1 book where
  entries := h.entries
  levels := h.levels
  attempted b _ := map_call_rowsOf b.1 b.2.events
  follows {before row after} e := by
    have hbooked : Booked schedule 0 0 (rows book) := h.booked
    rw [e] at hbooked
    have hfollows := hbooked.follows
    rwa [Nat.zero_add, Nat.zero_add] at hfollows
  recorded b hb := by
    refine recorded_of_follows fun row hrow => h.booked.exists_follows ?_
    exact List.mem_flatMap.2 ⟨b, hb, hrow⟩
  gate := h.gate
  flushRefused row hrow i hi := by
    obtain ⟨w, f, hfollows⟩ := h.booked.exists_follows hrow
    exact hfollows.recorded_of_flush hi
  flushes {before b after} e := by
    have hshown : Shown 0 book := h.shown
    rw [e, ← List.singleton_append, shown_append] at hshown
    rw [rows_append, List.countP_append, hshown.2.1, Nat.zero_add]

/-- Refusals change nothing of what a session attempts. Each failed call of a printer is in one
notice and in no answer, and on a writer the book tells what was recorded and flushed. -/
theorem refusals_session (p : Printer) (schedule schedule' : Schedule) (s : Surroundings)
    (steps : List Step) :
    (∀ sink : Option Sink,
      (Setting.session ⟨p, schedule⟩ sink s steps).map Entry.outline =
        (Setting.session ⟨p, schedule'⟩ sink s steps).map Entry.outline) ∧
      (∀ sink : Option Sink, AllReported (Setting.session ⟨p, schedule⟩ sink s steps)) ∧
      ∀ level : Severity, ∃ book, WriterBook schedule level steps
        (Setting.session ⟨p, schedule⟩ (some (.new .writer level)) s steps) book := by
  refine ⟨fun sink => ?_, fun sink => ?_, fun level => ?_⟩
  · exact ((sameOutline p schedule schedule').runAll true steps rfl trivial).outline
  · exact reported_runAll ⟨p, schedule⟩ true steps ⟨sink, s⟩
  · obtain ⟨book, h⟩ := kept_runAll ⟨p, schedule⟩ true steps
      (show State.sink ⟨some (.new .writer level), s⟩ = some (.new .writer level) from rfl) rfl
    exact ⟨book, h.writerBook⟩

end StepLog
