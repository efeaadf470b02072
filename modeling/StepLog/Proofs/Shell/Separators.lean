/-
  Separators start the shell lexer anew.

  A `;` or a line feed that is a token of its own puts the lexer back into command position and
  ends an open header (`next_separator`). It leaves the third flag alone: a redirection whose
  target is still to come goes on to wait behind the separator, and makes a plain argument of
  the command there (`redirection_outlives_semicolon`).

  Main statement: behind a separator a text is lexed as on its own exactly if no redirection
  waits there, and so a script whose lines are closed is lexed line by line
  (`tokenize_separated`).
-/
import StepLog.Proofs.Shell.Steps

namespace StepLog.Shell

/-- What stands between commands. -/
inductive Separator
  | semicolon
  | lineFeed

namespace Separator

def char : Separator → Char
  | semicolon => ';'
  | lineFeed => '\n'

def text (d : Separator) : String := String.singleton d.char

/-- The separator as a token of its own. -/
def token (d : Separator) : Token :=
  match d with
  | semicolon => ⟨.operator, d.text⟩
  | lineFeed => ⟨.whitespace, d.text⟩

/-- The character, put behind the separator, becomes part of its token. -/
def joins (d : Separator) (c : Char) : Bool :=
  match d with
  | semicolon => c == ';'
  | lineFeed => isSpace c

/-- A text that does not begin with a character that joins the separator. -/
def StartsApart (d : Separator) (s : List Char) : Prop := ∀ c ∈ s.head?, d.joins c = false

theorem text_toList (d : Separator) : d.text.toList = [d.char] := by
  unfold text
  rw [String.toList_singleton]

end Separator

/-! ## One separator -/

/-- A separator starts a new command outside of any header, and leaves a redirection open. -/
theorem next_separator (d : Separator) (p : Position) {s : List Char} (h : d.StartsApart s) :
    next p d.char s = ⟨[d.token], ⟨true, p.target, false⟩, s⟩ := by
  cases d with
  | semicolon =>
    have hop : operator ';' s = ([';'], s) := by
      cases s with
      | nil => rfl
      | cons c cs =>
        have hc : c ≠ ';' := beq_eq_false_iff_ne.1 (h c rfl)
        simp [operator, twoCharOperators, hc]
    show next p ';' s = _
    unfold next
    rw [if_neg (by decide), if_neg (by decide), if_pos (by decide), hop]
    rfl
  | lineFeed =>
    have hspace : isSpace '\n' = true := rfl
    have hnone : s.takeWhile isSpace = [] ∧ s.dropWhile isSpace = s := by
      cases s with
      | nil => exact ⟨rfl, rfl⟩
      | cons c cs =>
        have hc : ¬ isSpace c = true := Bool.eq_false_iff.1 (h c rfl)
        exact ⟨List.takeWhile_cons_of_neg hc, List.dropWhile_cons_of_neg hc⟩
    show next p '\n' s = _
    unfold next
    rw [if_pos hspace, List.takeWhile_cons_of_pos hspace, List.dropWhile_cons_of_pos hspace,
      hnone.1, hnone.2]
    rfl

theorem charsOf_token (d : Separator) : charsOf [d.token] = [d.char] := by
  cases d <;> rfl

theorem isWord_token (d : Separator) : d.token.kind.isWord = false := by
  cases d <;> rfl

/-- A last step that ends with the token of a separator has taken the separator and no more. -/
theorem eq_separator_of_last (d : Separator) {p : Position} {c : Char} {cs : List Char}
    (hrest : (next p c cs).rest = []) {before after : List Token}
    (h : before ++ (next p c cs).tokens = after ++ [d.token]) :
    before = after ∧ c :: cs = [d.char] := by
  have hsingle : (next p c cs).tokens = [d.token] := by
    rcases next_tokens p c cs with ⟨t, -, e⟩ | ⟨hne, hword⟩
    · rw [e] at h ⊢
      exact (List.append_inj' h rfl).2
    · -- A word ends with a token of its own kinds.
      have hlast := congrArg List.getLast? h
      rw [List.getLast?_append, List.getLast?_concat, List.getLast?_eq_some_getLast hne] at hlast
      have hkind := hword _ (List.getLast_mem hne)
      rw [Option.some.inj hlast, isWord_token] at hkind
      cases hkind
  obtain ⟨front, hcut, hfront⟩ := cuts_next p c cs
  rw [hsingle] at h
  rw [hrest, List.append_nil] at hfront
  refine ⟨(List.append_inj' h rfl).1, ?_⟩
  rw [← hfront, ← hcut.chars, hsingle, charsOf_token]

/-- Where the last token is a separator, the lexer comes to it with the other tokens behind. -/
theorem reaches_separator (d : Separator) {s : List Char} {tokens : List Token}
    (h : scan .start (s ++ [d.char]) = tokens ++ [d.token]) :
    ∃ p, Reaches (s ++ [d.char]) tokens p [d.char] := by
  obtain ⟨front, p, c, cs, hreach, hrest⟩ :=
    Reaches.start.exists_last (List.append_ne_nil_of_right_ne_nil s (List.cons_ne_nil d.char []))
  have hscan := hreach.scan_eq
  rw [scan, hrest, scan, List.append_nil, h] at hscan
  obtain ⟨rfl, hfront⟩ := eq_separator_of_last d hrest hscan.symm
  rw [hfront] at hreach
  exact ⟨p, hreach⟩

/-- Behind a separator the lexer starts anew, but for a redirection before it. -/
theorem scan_separated (d : Separator) {s : List Char} {tokens : List Token}
    (h : scan .start (s ++ [d.char]) = tokens ++ [d.token]) {t : List Char}
    (ht : d.StartsApart t) :
    scan .start (s ++ [d.char] ++ t) =
      tokens ++ [d.token] ++ scan ⟨true, awaitsTarget tokens, false⟩ t := by
  obtain ⟨p, hreach⟩ := reaches_separator d h
  have hbehind : Reaches (s ++ [d.char] ++ t) tokens p (d.char :: t) :=
    hreach.append_right (List.cons_ne_nil _ _) t
  rw [hbehind.step.scan_eq, next_separator d p ht, hreach.target_eq]

/-- The law of one separator: what follows it is lexed as on its own exactly if no redirection
before it still awaits its target. -/
theorem scan_separated_iff (d : Separator) {s : List Char} {tokens : List Token}
    (h : scan .start (s ++ [d.char]) = tokens ++ [d.token]) :
    (∀ t : List Char, '\x00' ∉ t → d.StartsApart t →
        scan .start (s ++ [d.char] ++ t) = tokens ++ [d.token] ++ scan .start t) ↔
      awaitsTarget tokens = false := by
  constructor
  · intro hall
    -- A command `x` behind the separator would be the target.
    have hx : d.StartsApart ['x'] := by cases d <;> (rintro c ⟨rfl⟩; rfl)
    have heq := hall ['x'] (by decide) hx
    rw [scan_separated d h hx] at heq
    have hscan := List.append_cancel_left heq
    cases ha : awaitsTarget tokens with
    | false => rfl
    | true =>
      rw [ha] at hscan
      revert hscan
      decide +kernel
  · intro hnone t _ ht
    rw [scan_separated d h ht, hnone]
    rfl

/-! ## Lines -/

/-- A line with its tokens, which neither reach into the line behind it nor wait for it, and
which do not reach back. -/
structure StandsAlone (l : String × List Token) : Prop where
  tokens : lexer.tokenize l.1 = .ok l.2
  closed : lexer.tokenize (l.1 ++ "\n") = .ok (l.2 ++ [Separator.lineFeed.token])
  settled : awaitsTarget l.2 = false
  visible : ∃ c, l.1.toList.head? = some c ∧ isSpace c = false

/-- Lines put together, each with a line feed behind it. -/
def script (lines : List (String × List Token)) : List Char :=
  lines.flatMap fun l => l.1.toList ++ ['\n']

theorem startsApart_script {lines : List (String × List Token)}
    (h : ∀ l ∈ lines, StandsAlone l) : Separator.lineFeed.StartsApart (script lines) := by
  cases lines with
  | nil => exact nofun
  | cons l lines =>
    obtain ⟨c, hc, hspace⟩ := (h l List.mem_cons_self).visible
    intro c' hc'
    have hhead : (script (l :: lines)).head? = some c := by
      simp [script, List.head?_append, hc]
    rw [hhead] at hc'
    cases hc'
    exact hspace

theorem not_mem_script {lines : List (String × List Token)} (h : ∀ l ∈ lines, StandsAlone l) :
    '\x00' ∉ script lines := by
  intro hmem
  obtain ⟨l, hl, hmem⟩ := List.mem_flatMap.1 hmem
  rcases List.mem_append.1 hmem with hmem | hmem
  · exact (tokenize_eq_ok_iff.1 (h l hl).tokens).1 hmem
  · cases List.mem_singleton.1 hmem

/-- Lines that stand alone are lexed one by one. -/
theorem scan_script {lines : List (String × List Token)} (h : ∀ l ∈ lines, StandsAlone l) :
    scan .start (script lines) = lines.flatMap fun l => l.2 ++ [Separator.lineFeed.token] := by
  induction lines with
  | nil => rw [script, List.flatMap_nil, scan, List.flatMap_nil]
  | cons l lines ih =>
    have hl := h l List.mem_cons_self
    have hlines : ∀ l' ∈ lines, StandsAlone l' := fun l' hl' => h l' (List.mem_cons_of_mem l hl')
    have hclosed := (tokenize_eq_ok_iff.1 hl.closed).2
    rw [String.toList_append] at hclosed
    have hbehind := (scan_separated_iff .lineFeed hclosed).2 hl.settled (script lines)
      (not_mem_script hlines) (startsApart_script hlines)
    calc scan .start (script (l :: lines))
        = scan .start (l.1.toList ++ ['\n'] ++ script lines) := by
          rw [script, List.flatMap_cons]
          rfl
      _ = l.2 ++ [Separator.lineFeed.token] ++ scan .start (script lines) := hbehind
      _ = (l :: lines).flatMap fun l => l.2 ++ [Separator.lineFeed.token] := by
        rw [ih hlines, List.flatMap_cons]

/-! ## Texts -/

/-- A text behind a separator that is a token of its own is lexed as on its own, unless a
redirection before the separator still awaits its target; then some text is not. So a script of
lines that stand alone is lexed line by line. -/
theorem tokenize_separated (d : Separator) {a : String} {tokens : List Token}
    (ha : lexer.tokenize a = .ok tokens)
    (hd : lexer.tokenize (a ++ d.text) = .ok (tokens ++ [d.token])) :
    ((∀ {b : String} {more : List Token}, lexer.tokenize b = .ok more →
        d.StartsApart b.toList →
        lexer.tokenize (a ++ d.text ++ b) = .ok (tokens ++ [d.token] ++ more)) ↔
      awaitsTarget tokens = false) ∧
    ∀ lines : List (String × List Token), (∀ l ∈ lines, StandsAlone l) →
      lexer.tokenize (String.join (lines.map fun l => l.1 ++ "\n")) =
        .ok (lines.flatMap fun l => l.2 ++ [Separator.lineFeed.token]) := by
  constructor
  · have hnul := (tokenize_eq_ok_iff.1 ha).1
    obtain ⟨hnuld, hscan⟩ := tokenize_eq_ok_iff.1 hd
    rw [String.toList_append, d.text_toList] at hnuld hscan
    rw [← scan_separated_iff d hscan]
    constructor
    · intro hall t ht hapart
      have hb : lexer.tokenize (String.ofList t) = .ok (scan .start t) := by
        rw [tokenize_eq_ok_iff, String.toList_ofList]
        exact ⟨ht, rfl⟩
      have htokens := (tokenize_eq_ok_iff.1 (hall hb (by rwa [String.toList_ofList]))).2
      rwa [String.toList_append, String.toList_append, d.text_toList, String.toList_ofList]
        at htokens
    · intro hall b more hb hapart
      obtain ⟨hnulb, rfl⟩ := tokenize_eq_ok_iff.1 hb
      rw [tokenize_eq_ok_iff, String.toList_append, String.toList_append, d.text_toList]
      refine ⟨?_, hall b.toList hnulb hapart⟩
      rw [List.mem_append, not_or]
      exact ⟨hnuld, hnulb⟩
  · intro lines h
    have htext : (String.join (lines.map fun l => l.1 ++ "\n")).toList = script lines := by
      rw [String.toList_join, List.flatMap_map]
      exact congrArg (List.flatMap · lines) (funext fun l => String.toList_append)
    rw [tokenize_eq_ok_iff, htext]
    exact ⟨not_mem_script h, scan_script h⟩

/-- The separators of `if x; then` and of two lines, the first with a redirection. -/
theorem tokenize_separated_if :
    lexer.tokenize ("if x" ++ ";" ++ " then") =
      .ok [⟨.keyword, "if"⟩, ⟨.whitespace, " "⟩, ⟨.command, "x"⟩, ⟨.operator, ";"⟩,
        ⟨.whitespace, " "⟩, ⟨.keyword, "then"⟩] ∧
    lexer.tokenize (String.join ["cat <a" ++ "\n", "make" ++ "\n"]) =
      .ok [⟨.command, "cat"⟩, ⟨.whitespace, " "⟩, ⟨.operator, "<"⟩, ⟨.argument, "a"⟩,
        ⟨.whitespace, "\n"⟩, ⟨.command, "make"⟩, ⟨.whitespace, "\n"⟩] := by
  have hlex : ∀ {text : String} {tokens : List Token},
      '\x00' ∉ text.toList ∧ scan .start text.toList = tokens → lexer.tokenize text = .ok tokens :=
    tokenize_eq_ok_iff.2
  have hfront : lexer.tokenize "if x" =
      .ok [⟨.keyword, "if"⟩, ⟨.whitespace, " "⟩, ⟨.command, "x"⟩] := hlex (by decide +kernel)
  have hclosed : lexer.tokenize ("if x" ++ Separator.semicolon.text) =
      .ok ([⟨.keyword, "if"⟩, ⟨.whitespace, " "⟩, ⟨.command, "x"⟩] ++
        [Separator.semicolon.token]) := hlex (by decide +kernel)
  obtain ⟨hseparated, hscript⟩ := tokenize_separated .semicolon hfront hclosed
  constructor
  · have hbehind : lexer.tokenize " then" = .ok [⟨.whitespace, " "⟩, ⟨.keyword, "then"⟩] :=
      hlex (by decide +kernel)
    have hapart : Separator.semicolon.StartsApart " then".toList := by
      rintro c ⟨rfl⟩
      rfl
    exact hseparated.2 (by decide +kernel) hbehind hapart
  · refine hscript [("cat <a", [⟨.command, "cat"⟩, ⟨.whitespace, " "⟩,
      ⟨.operator, "<"⟩, ⟨.argument, "a"⟩]), ("make", [⟨.command, "make"⟩])] ?_
    refine List.forall_mem_cons.2 ⟨?_, List.forall_mem_singleton.2 ?_⟩
    · exact ⟨hlex (by decide +kernel), hlex (by decide +kernel), by decide +kernel, 'c', rfl, rfl⟩
    · exact ⟨hlex (by decide +kernel), hlex (by decide +kernel), by decide +kernel, 'm', rfl, rfl⟩

/-- Behind an open redirection the separator does not start anew: the command `x` behind `>;` is
taken for the target. -/
theorem redirection_outlives_semicolon :
    lexer.tokenize ">" = .ok [⟨.operator, ">"⟩] ∧
    lexer.tokenize (">" ++ ";") = .ok ([⟨.operator, ">"⟩] ++ [⟨.operator, ";"⟩]) ∧
    lexer.tokenize "x" = .ok [⟨.command, "x"⟩] ∧
    lexer.tokenize (">" ++ ";" ++ "x") =
      .ok [⟨.operator, ">"⟩, ⟨.operator, ";"⟩, ⟨.argument, "x"⟩] ∧
    lexer.tokenize (">" ++ ";" ++ "x") ≠
      .ok ([⟨.operator, ">"⟩] ++ [⟨.operator, ";"⟩] ++ [⟨.command, "x"⟩]) := by
  simp only [ne_eq, tokenize_eq_ok_iff]
  decide +kernel

end StepLog.Shell
