/-
  Detectors under overrides.

  A choice of a provider takes the place of both CI probes, a choice of a theme that of the
  background probe, and `auto` of none. So of any sequence of choices, only the last one of each
  kind that is not `auto` leaves anything behind (`overriddenBy_eq`), and how the two kinds stand
  among each other does not matter. Main statement: `last_override_wins`. A configured printer is
  the case of one provider and one theme (`Config.detections_printer`).
-/
import StepLog.Printer.Basic
import Mathlib.Data.List.Induction

namespace StepLog

/-- One choice that overrides detectors. -/
inductive Override
  | provider (choice : CiProvider)
  | theme (choice : ThemeChoice)

/-- The CI environment that a provider forces; `auto` forces none. -/
def CiProvider.forced? : CiProvider → Option CiEnvironment
  | .auto => Option.none
  | .none => some .none
  | .github => some .gitHubActions
  | .gitlab => some .gitLabCi

/-- The theme that a choice forces. -/
def ThemeChoice.forced? : ThemeChoice → Option Theme
  | .auto => Option.none
  | .light => some .light
  | .dark => some .dark

namespace Override

def provider? : Override → Option CiProvider
  | provider choice => some choice
  | theme _ => none

def theme? : Override → Option ThemeChoice
  | provider _ => none
  | theme choice => some choice

/-- The providers among the overrides, in their order. -/
def providers (os : List Override) : List CiProvider := os.filterMap provider?

def themes (os : List Override) : List ThemeChoice := os.filterMap theme?

/-- The last word about the CI environment, if there is one. -/
def environment? (os : List Override) : Option CiEnvironment :=
  ((providers os).filterMap CiProvider.forced?).getLast?

/-- The last word about the theme. -/
def background? (os : List Override) : Option Theme :=
  ((themes os).filterMap ThemeChoice.forced?).getLast?

theorem environment?_concat (os : List Override) (o : Override) :
    environment? (os ++ [o]) = (o.provider?.bind CiProvider.forced?).or (environment? os) := by
  unfold environment? providers
  rw [List.filterMap_append, List.filterMap_append, List.getLast?_append]
  rcases o with ⟨_ | _⟩ | _ <;> rfl

theorem background?_concat (os : List Override) (o : Override) :
    background? (os ++ [o]) = (o.theme?.bind ThemeChoice.forced?).or (background? os) := by
  unfold background? themes
  rw [List.filterMap_append, List.filterMap_append, List.getLast?_append]
  rcases o with _ | ⟨_ | _⟩ <;> rfl

end Override

open Override (environment? background? providers themes)

namespace Detectors

def override (d : Detectors) : Override → Detectors
  | .provider choice => d.withProvider choice
  | .theme choice => d.withTheme choice

/-- Detectors with overrides on them, the first one first. -/
def overriddenBy (d : Detectors) (os : List Override) : Detectors := os.foldl override d

/-- The probe that answers a question about the CI system. -/
def ciProbe (d : Detectors) : CiQuestion → Probe
  | .github => d.github
  | .gitlab => d.gitlab

end Detectors

/-- The answer to a question about the CI system in an environment. -/
def CiEnvironment.answer (e : CiEnvironment) : CiQuestion → Bool
  | .github => e == .gitHubActions
  | .gitlab => e == .gitLabCi

namespace Detectors

variable (base : Detectors) (os : List Override)

theorem overriddenBy_concat (o : Override) :
    base.overriddenBy (os ++ [o]) = (base.overriddenBy os).override o := by
  unfold overriddenBy
  rw [List.foldl_append]
  rfl

/-- Detectors with probes forced where there is a word about them. -/
def forcedTo (d : Detectors) (environment : Option CiEnvironment) (theme : Option Theme) :
    Detectors where
  github := environment.elim d.github fun e => .fixed (e.answer .github)
  gitlab := environment.elim d.gitlab fun e => .fixed (e.answer .gitlab)
  noColor := d.noColor
  darkBackground := theme.elim d.darkBackground fun t => .fixed (t == .dark)

/-- One more override replaces the word of its own kind, unless it is `auto`. -/
theorem override_forcedTo (environment : Option CiEnvironment) (theme : Option Theme)
    (o : Override) :
    (base.forcedTo environment theme).override o =
      base.forcedTo ((o.provider?.bind CiProvider.forced?).or environment)
        ((o.theme?.bind ThemeChoice.forced?).or theme) := by
  cases o with
  | provider choice => cases choice <;> rfl
  | theme choice => cases choice <;> rfl

/-- All four probes after a sequence of overrides. -/
theorem overriddenBy_eq :
    base.overriddenBy os = base.forcedTo (environment? os) (background? os) := by
  induction os using List.reverseRecOn with
  | nil => rfl
  | append_singleton os o ih =>
    rw [overriddenBy_concat, ih, override_forcedTo, Override.environment?_concat,
      Override.background?_concat]

variable (s : Surroundings)

theorem ciEnvironment_forcedTo (environment : Option CiEnvironment) (theme : Option Theme) :
    (base.forcedTo environment theme).ciEnvironment s =
      environment.getD (base.ciEnvironment s) := by
  cases environment with
  | none => rfl
  | some e => cases e <;> rfl

theorem ciCalls_forcedTo (environment : Option CiEnvironment) (theme : Option Theme) :
    (base.forcedTo environment theme).ciCalls =
      if environment = none then base.ciCalls else [] := by
  cases environment with
  | none => rfl
  | some e => rfl

theorem theme_forcedTo (environment : Option CiEnvironment) (theme : Option Theme) :
    (base.forcedTo environment theme).theme s = theme.getD (base.theme s) := by
  cases theme with
  | none => rfl
  | some t => cases t <;> rfl

theorem ciProbe_forcedTo (environment : Option CiEnvironment) (theme : Option Theme)
    (q : CiQuestion) :
    (base.forcedTo environment theme).ciProbe q =
      environment.elim (base.ciProbe q) fun e => .fixed (e.answer q) := by
  cases q <;> rfl

end Detectors

/-- What a configuration leaves open is detected in the environment, and nothing else is. -/
theorem Config.detections_printer (c : Config) (s : Surroundings) :
    c.printer.detectors.ciEnvironment s =
        c.provider.forced?.getD (Detectors.standard.ciEnvironment s) ∧
      c.printer.theme s = c.theme.forced?.getD (Detectors.standard.theme s) := by
  have hforced : c.printer.detectors =
      Detectors.standard.forcedTo c.provider.forced? c.theme.forced? := by
    show Detectors.standard.overriddenBy [.provider c.provider, .theme c.theme] = _
    rw [Detectors.overriddenBy_eq]
    cases c.provider <;> cases c.theme <;> rfl
  refine ⟨?_, ?_⟩
  · rw [hforced, Detectors.ciEnvironment_forcedTo]
  · show c.printer.detectors.theme s = _
    rw [hforced, Detectors.theme_forcedTo]

namespace Detectors

/-- Of any sequence of overrides, the last provider and the last theme that are not `auto` decide,
each for itself, whatever the surroundings; what no override speaks of is left to the probes
that were there. The CI probes that were there are called only if no provider decides, and color is
refused as before. Only the two sequences count, not how they are interleaved. -/
theorem last_override_wins (base : Detectors) (os : List Override) :
    (∀ s, (base.overriddenBy os).ciEnvironment s =
      (environment? os).getD (base.ciEnvironment s)) ∧
    (∀ q, (base.overriddenBy os).ciProbe q =
      (environment? os).elim (base.ciProbe q) fun e => .fixed (e.answer q)) ∧
    (base.overriddenBy os).ciCalls = (if environment? os = none then base.ciCalls else []) ∧
    (∀ s, (base.overriddenBy os).theme s = (background? os).getD (base.theme s)) ∧
    (base.overriddenBy os).noColor = base.noColor ∧
    ∀ others, providers others = providers os → themes others = themes os →
      base.overriddenBy others = base.overriddenBy os := by
  have hsame : ∀ others, providers others = providers os → themes others = themes os →
      base.overriddenBy others = base.overriddenBy os := by
    intro others hproviders hthemes
    rw [overriddenBy_eq, overriddenBy_eq]
    unfold environment? background?
    rw [hproviders, hthemes]
  rw [overriddenBy_eq] at hsame ⊢
  exact ⟨fun s => ciEnvironment_forcedTo base s _ _, ciProbe_forcedTo base _ _,
    ciCalls_forcedTo base _ _, fun s => theme_forcedTo base s _ _, rfl, hsame⟩

/-- The last provider clears what the one before it has set, and `auto` takes nothing back. -/
example (s : Surroundings) :
    (supplied.overriddenBy [.provider .github, .theme .light, .provider .none, .theme .auto,
      .provider .auto]).ciEnvironment s = .none := rfl

end Detectors

end StepLog
