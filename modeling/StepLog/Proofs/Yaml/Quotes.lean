/-
  Quotes in keys.

  Looking for the colon of a key the lexer takes every quote for one that opens, wherever it
  stands, and passes over what is in quotes. `QuoteState` follows the quotes and nothing else. A
  key that the lexer finds has all its quotes closed (`after_of_keyFrom`). The other way round
  a text whose quotes are closed is found as a key, unless something outside its quotes ends it
  early (`keyFrom_of_quiet`).
-/
import StepLog.Proofs.Params.LineStarts

namespace StepLog.Yaml

/-! ## Quotes -/

/-- Where a reader of quotes stands. -/
inductive QuoteState
  | outside
  | inside (quote : Char)
  /-- Behind a backslash in double quotes. -/
  | escaped
deriving DecidableEq

namespace QuoteState

/-- One character further. -/
def step : QuoteState → Char → QuoteState
  | outside, c => if c = '"' ∨ c = '\'' then inside c else outside
  | inside q, c =>
    if q = '"' ∧ c = '\\' then escaped else if c = q then outside else inside q
  | escaped, _ => inside '"'

/-- Behind a text. -/
def after (state : QuoteState) (s : List Char) : QuoteState := s.foldl step state

@[simp] theorem after_nil (state : QuoteState) : state.after [] = state := rfl

@[simp] theorem after_cons (state : QuoteState) (c : Char) (s : List Char) :
    state.after (c :: s) = (state.step c).after s := rfl

@[simp] theorem after_append (state : QuoteState) (s t : List Char) :
    state.after (s ++ t) = (state.after s).after t := List.foldl_append

/-- With a quote open, or none. -/
def ofQuote : Option Char → QuoteState
  | none => outside
  | some q => inside q

theorem step_outside_of_quote {c : Char} (h : c = '"' ∨ c = '\'') : outside.step c = inside c :=
  if_pos h

theorem step_outside_of_other {c : Char} (h : ¬ (c = '"' ∨ c = '\'')) : outside.step c = outside :=
  if_neg h

theorem step_inside {q c : Char} (h : ¬ (q = '"' ∧ c = '\\')) :
    (inside q).step c = ofQuote (if c = q then none else some q) := by
  unfold step
  dsimp only
  rw [if_neg h]
  split
  · rfl
  · rfl

end QuoteState

/-- Every quote in the text is closed again. -/
def Closed (s : List Char) : Prop := QuoteState.outside.after s = .outside

instance (s : List Char) : Decidable (Closed s) := decEq _ _

/-- Nothing outside the quotes of the text is taken for the colon of a key or for a comment. -/
def Quiet (state : QuoteState) (before : Option Char) : List Char → Prop
  | [] => True
  | c :: cs =>
    (state = .outside → ¬ (c = '#' ∧ before = some ' ') ∧ ¬ (c = ':' ∧ cs.head? = some ' ')) ∧
      Quiet (state.step c) (some c) cs

/-! ## What is found -/

/-- No quote is open behind a key that is found. -/
theorem after_of_keyFrom {quote before : Option Char} {text : List Char}
    {k : List Char × List Char} (h : keyFrom quote before text = some k) :
    (QuoteState.ofQuote quote).after k.1 = .outside := by
  fun_induction keyFrom quote before text generalizing k with
  | case1 => cases h
  | case2 quote before c hc =>
    obtain ⟨rfl, rfl⟩ := hc
    cases h
    rfl
  | case3 => cases h
  | case4 before c d ds q hc ih =>
    obtain ⟨k', hk, rfl⟩ := Option.map_eq_some_iff.1 h
    obtain ⟨rfl, rfl⟩ := hc
    have hafter := ih hk
    exact hafter
  | case5 before c d ds q hc ih =>
    obtain ⟨k', hk, rfl⟩ := Option.map_eq_some_iff.1 h
    show ((QuoteState.inside q).step c).after k'.1 = .outside
    rw [QuoteState.step_inside hc]
    exact ih hk
  | case6 before c d ds hc ih =>
    obtain ⟨k', hk, rfl⟩ := Option.map_eq_some_iff.1 h
    show (QuoteState.outside.step c).after k'.1 = .outside
    rw [QuoteState.step_outside_of_quote hc]
    exact ih hk
  | case7 => cases h
  | case8 before c d ds h₁ h₂ h₃ =>
    cases h
    rfl
  | case9 before c d ds h₁ h₂ h₃ ih =>
    obtain ⟨k', hk, rfl⟩ := Option.map_eq_some_iff.1 h
    show (QuoteState.outside.step c).after k'.1 = .outside
    rw [QuoteState.step_outside_of_other h₁]
    exact ih hk

/-- A text with closed quotes and nothing that ends it early is found in front of a colon with
nothing or a space behind it. The recursion is on the text; a backslash in double quotes takes two
characters at once. -/
theorem keyFrom_of_quiet {rest : List Char} (hrest : rest = [] ∨ rest.head? = some ' ') :
    (s : List Char) → {quote before : Option Char} →
    Quiet (.ofQuote quote) before s → (QuoteState.ofQuote quote).after s = .outside →
    keyFrom quote before (s ++ ':' :: rest) = some (s, ':' :: rest)
  | [], none, before, _, _ => by
    have hquote : ¬ (':' = '"' ∨ ':' = '\'') := by decide
    have hcomment : ¬ (':' = '#' ∧ before = some ' ') := fun h => absurd h.1 (by decide)
    show keyFrom none before (':' :: rest) = _
    cases rest with
    | nil => exact if_pos ⟨rfl, rfl⟩
    | cons d ds =>
      obtain rfl : d = ' ' := by simpa using hrest
      unfold keyFrom
      rw [if_neg hquote, if_neg hcomment, if_pos ⟨rfl, rfl⟩]
  | [], some q, before, _, hafter => by cases hafter
  | c :: s, quote, before, hquiet, hafter => by
    obtain ⟨hends, hquiet⟩ := hquiet
    obtain ⟨d, ds, hd⟩ : ∃ d ds, s ++ ':' :: rest = d :: ds := by
      cases s with
      | nil => exact ⟨_, _, rfl⟩
      | cons d s => exact ⟨_, _, rfl⟩
    have hhead : d = ' ' → s.head? = some ' ' := by
      rintro rfl
      cases s with
      | nil => cases hd
      | cons d s =>
        cases hd
        rfl
    rw [List.cons_append, hd]
    unfold keyFrom
    rw [QuoteState.after_cons] at hafter
    cases quote with
    | none =>
      obtain ⟨hcomment, hcolon⟩ := hends rfl
      by_cases hquote : c = '"' ∨ c = '\''
      · have hstep : (QuoteState.ofQuote none).step c = .ofQuote (some c) :=
          QuoteState.step_outside_of_quote hquote
        rw [hstep] at hquiet hafter
        dsimp only
        rw [if_pos hquote, ← hd, keyFrom_of_quiet hrest s hquiet hafter]
        rfl
      · have hstep : (QuoteState.ofQuote none).step c = .ofQuote none :=
          QuoteState.step_outside_of_other hquote
        rw [hstep] at hquiet hafter
        dsimp only
        rw [if_neg hquote, if_neg hcomment, if_neg fun h => hcolon ⟨h.1, hhead h.2⟩, ← hd,
          keyFrom_of_quiet hrest s hquiet hafter]
        rfl
    | some q =>
      by_cases hescape : q = '"' ∧ c = '\\'
      · obtain ⟨rfl, rfl⟩ := hescape
        cases s with
        | nil => cases hafter
        | cons e s =>
          obtain ⟨rfl, rfl⟩ := List.cons.inj hd
          have hquiet : Quiet (.ofQuote (some '"')) (some e) s := hquiet.2
          have hafter : (QuoteState.ofQuote (some '"')).after s = .outside := hafter
          have hfound := keyFrom_of_quiet hrest s hquiet hafter
          dsimp only
          rw [if_pos ⟨rfl, rfl⟩]
          exact congrArg (Option.map _) hfound
      · have hstep := QuoteState.step_inside hescape
        rw [show QuoteState.ofQuote (some q) = .inside q from rfl, hstep] at hquiet hafter
        dsimp only
        rw [if_neg hescape, ← hd, keyFrom_of_quiet hrest s hquiet hafter]
        rfl

/-! ## Quoted spellings -/

/-- Outside its quotes the text has nothing but quotes. -/
def QuotesOnly (state : QuoteState) : List Char → Prop
  | [] => True
  | c :: cs => (state = .outside → c = '"' ∨ c = '\'') ∧ QuotesOnly (state.step c) cs

/-- The text leads from one state to another, and all of it that is outside is quotes. -/
structure Enclosed (state : QuoteState) (s : List Char) (state' : QuoteState) : Prop where
  quotes : QuotesOnly state s
  after : state.after s = state'

theorem quotesOnly_append {state : QuoteState} {s t : List Char} (hs : QuotesOnly state s)
    (ht : QuotesOnly (state.after s) t) : QuotesOnly state (s ++ t) := by
  induction s generalizing state with
  | nil => exact ht
  | cons c cs ih => exact ⟨hs.1, ih hs.2 ht⟩

theorem Enclosed.append {state state' state'' : QuoteState} {s t : List Char}
    (h : Enclosed state s state') (h' : Enclosed state' t state'') :
    Enclosed state (s ++ t) state'' where
  quotes := quotesOnly_append h.quotes (by rw [h.after]; exact h'.quotes)
  after := by rw [QuoteState.after_append, h.after, h'.after]

/-- One character after the other, each of which leads back to the same state. -/
theorem Enclosed.flatMap {state : QuoteState} {f : Char → List Char}
    (h : ∀ c, Enclosed state (f c) state) (s : List Char) :
    Enclosed state (s.flatMap f) state := by
  induction s with
  | nil => exact ⟨trivial, rfl⟩
  | cons c cs ih =>
    rw [List.flatMap_cons]
    exact (h c).append ih

theorem quiet_of_quotesOnly {state : QuoteState} {s : List Char} (h : QuotesOnly state s)
    (before : Option Char) : Quiet state before s := by
  induction s generalizing state before with
  | nil => trivial
  | cons c cs ih =>
    refine ⟨?_, ih h.2 _⟩
    intro houtside
    rcases h.1 houtside with rfl | rfl
    · exact ⟨fun h => absurd h.1 (by decide), fun h => absurd h.1 (by decide)⟩
    · exact ⟨fun h => absurd h.1 (by decide), fun h => absurd h.1 (by decide)⟩

/-- What is not the open quote stays inside, a backslash in double quotes apart. -/
theorem enclosed_of_not_mem {q : Char} {s : List Char} (hq : q ∉ s) (hb : q = '"' → '\\' ∉ s) :
    Enclosed (.inside q) s (.inside q) := by
  induction s with
  | nil => exact ⟨trivial, rfl⟩
  | cons c cs ih =>
    rw [List.mem_cons, not_or] at hq
    have hescape : ¬ (q = '"' ∧ c = '\\') := by
      rintro ⟨rfl, rfl⟩
      exact hb rfl List.mem_cons_self
    have hstep : (QuoteState.inside q).step c = .inside q := by
      rw [QuoteState.step_inside hescape, if_neg (Ne.symm hq.1)]
      rfl
    obtain ⟨hquotes, hafter⟩ := ih hq.2 fun h => mt (List.mem_cons_of_mem c) (hb h)
    refine ⟨⟨nofun, ?_⟩, ?_⟩
    · rw [hstep]
      exact hquotes
    · rw [QuoteState.after_cons, hstep, hafter]

end StepLog.Yaml
