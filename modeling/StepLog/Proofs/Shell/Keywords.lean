/-
  Keywords are whole words, and `in` belongs to a header.

  A word without quotes and parameters has one part (`length_word`), so a keyword is all of its
  word, and what stands around a word is blank space or an operator (`Reaches.apart`,
  `beginsApart_scan`). A position with an open header takes no command, and it is reached only
  where a `for`, `case` or `select` stands behind and nothing since has closed its header
  (`Reaches.inHeader`).

  Main statement: `tokenize_keywords`.
-/
import StepLog.Proofs.Shell.Commands

namespace StepLog.Shell

/-- The first token, if there is one, is blank space or an operator. -/
def BeginsApart (tokens : List Token) : Prop :=
  ∀ t ∈ tokens.head?, t.kind = .whitespace ∨ t.kind = .operator

/-- A token that leaves a header open: no keyword, no command name and no end of a command. -/
def LeavesHeader (t : Token) : Prop :=
  t.kind ≠ .keyword ∧ t.kind ≠ .command ∧ t.endsCommand = false

/-- The keyword of a header stands behind, and the header is still open. -/
def InHeader (tokens : List Token) : Prop :=
  ∃ front header between, tokens = front ++ header :: between ∧ header.kind = .keyword ∧
    header.text ∈ headerKeywords ∧ ∀ t ∈ between, LeavesHeader t

/-! ## One word, one part -/

theorem head_of_run_rest (s : List Char) : ∀ c ∈ (run s).2.head?, endsRun c = true := by
  fun_induction run s with
  | case1 => rintro _ ⟨⟩
  | case2 c h =>
    rintro _ ⟨rfl⟩
    exact h
  | case3 => rintro _ ⟨⟩
  | case4 c d ds h =>
    rintro _ ⟨rfl⟩
    exact h
  | case5 d ds _ ih => exact ih
  | case6 c d ds _ _ ih => exact ih

theorem wordText_cons (seg : Segment) (segments : List Segment) :
    wordText (seg :: segments) = seg.text ++ wordText segments := rfl

/-- A quote or a `$` at the front begins a word. -/
theorem mem_wordText_of_head {c : Char} (h : (isQuote c || c = '$') = true) (cs : List Char) :
    c ∈ wordText (word (c :: cs)).1 := by
  have hword : (isSpace c || isOperator c) = false := by
    simp only [isQuote, Bool.or_eq_true, decide_eq_true_eq] at h
    rcases h with (rfl | rfl) | rfl <;> decide
  rw [word, if_neg (by simp [hword])]
  split
  · simp [wordText, Segment.text]
  · next hq =>
    rw [Bool.eq_false_iff.2 hq, Bool.false_or, decide_eq_true_eq] at h
    rw [if_pos h]
    simp [wordText, Segment.text]

/-- Parts of a word meet at a quote or a `$`. -/
theorem length_word_le_one {s : List Char}
    (h : ∀ c ∈ wordText (word s).1, (isQuote c || c = '$') = false) : (word s).1.length ≤ 1 := by
  have hhead : ∀ {c : Char} {cs : List Char}, (isQuote c || c = '$') = true →
      ¬ ∀ c' ∈ wordText (word (c :: cs)).1, (isQuote c' || c' = '$') = false := by
    intro c cs hc hall
    rw [hall c (mem_wordText_of_head hc cs)] at hc
    cases hc
  fun_cases word s with
  | case1 => exact Nat.zero_le 1
  | case2 => exact Nat.zero_le 1
  | case3 c cs _ hq => exact absurd h (hhead (by simp [hq]))
  | case4 cs => exact absurd h (hhead rfl)
  | case5 c cs hc hq hd =>
    -- What the run ends at either ends the word or is one of its characters.
    have hend := head_of_run_rest (c :: cs)
    rw [word, if_neg hc, if_neg hq, if_neg hd] at h
    generalize (run (c :: cs)).2 = rest at h hend
    have hrest : ∀ c' ∈ wordText (word rest).1, (isQuote c' || c' = '$') = false := by
      intro c' hc'
      exact h c' (List.mem_append_right _ hc')
    cases rest with
    | nil => simp [word]
    | cons d ds =>
      have hd := hend d rfl
      by_cases hstop : (isSpace d || isOperator d) = true
      · simp [word, hstop]
      · rw [Bool.not_eq_true] at hstop
        exact absurd hrest (hhead (by simpa [endsRun, hstop] using hd))

/-! ## What a keyword is -/

/-- A keyword is all of its word: one that stands in the list, or the `in` of a header. -/
theorem Classified.of_keyword {p : Position} {segments : List Segment}
    {r : List Token × Position} (h : Classified p segments r)
    (hin : wordText segments = "in".toList → segments.length ≤ 1) {t : Token} (ht : t ∈ r.1)
    (hkind : t.kind = .keyword) :
    r.1 = [t] ∧ (t.text ∈ keywords ∨ t.text = "in" ∧ p.header = true) := by
  have hno : ∀ {first later : TokenKind}, first ≠ .keyword → later ≠ .keyword →
      t ∉ segmentTokens first later segments := by
    intro first later hfirst hlater hmem
    have hcases := kind_of_mem_segmentTokens hmem
    rw [hkind] at hcases
    rcases hcases with e | e | e | e
    · exact hfirst e.symm
    · exact hlater e.symm
    · cases e
    · cases e
  cases h with
  | target => exact absurd ht (hno (by decide) (by decide))
  | headerIn _ hheader hword _ =>
    obtain ⟨seg, rfl⟩ : ∃ seg, segments = [seg] := by
      cases segments with
      | nil => cases hword
      | cons seg segments => exact ⟨seg, by rw [List.eq_nil_of_length_eq_zero (Nat.le_zero.1
          (Nat.le_of_succ_le_succ (hin hword)))]⟩
    rw [wordText_cons, wordText, List.map_nil, List.flatten_nil, List.append_nil] at hword
    have htext : t.text = "in" := by
      rw [List.mem_singleton.1 ht]
      cases seg <;> exact congrArg String.ofList hword
    exact ⟨congrArg (· :: []) (List.mem_singleton.1 ht).symm, .inr ⟨htext, hheader⟩⟩
  | argument => exact absurd ht (hno (by decide) (by decide))
  | assignment => exact absurd ht (hno (by decide) (by decide))
  | keyword _ _ hmem _ _ =>
    rw [List.mem_singleton.1 ht]
    exact ⟨rfl, .inl hmem⟩
  | command => exact absurd ht (hno (by decide) (by decide))

/-- A step that cuts a keyword off cuts off nothing else. It finds a word, and leaves what ends
the word. -/
theorem next_keyword {p : Position} {c : Char} {cs : List Char} {left right : List Token}
    {t : Token} (e : (next p c cs).tokens = left ++ t :: right) (hkind : t.kind = .keyword) :
    (isSpace c || isOperator c) = false ∧ left = [] ∧ right = [] ∧
      (∀ d ∈ (next p c cs).rest.head?, (isSpace d || isOperator d) = true) ∧
      (t.text ∈ keywords ∨ t.text = "in" ∧ p.header = true) := by
  obtain ⟨hc, hnext⟩ := next_of_isWord e (by rw [hkind]; rfl)
  rw [hnext] at e ⊢
  dsimp only at e ⊢
  have hmem : t ∈ (classify p (word (c :: cs)).1).1 := by
    rw [e]
    exact List.mem_append_right _ List.mem_cons_self
  have hin : wordText (word (c :: cs)).1 = "in".toList → (word (c :: cs)).1.length ≤ 1 := by
    intro hword
    have hplain : "in".toList.all (fun c => (isQuote c || c = '$') == false) = true := by decide
    refine length_word_le_one fun c' hc' => ?_
    rw [hword] at hc'
    exact eq_of_beq (List.all_eq_true.1 hplain c' hc')
  obtain ⟨hsingle, hword⟩ := (classified_classify p _).of_keyword hin hmem hkind
  rw [hsingle] at e
  obtain ⟨-, hleft, hright⟩ := eq_of_singleton e
  exact ⟨hc, hleft, hright, head_of_word_rest (c :: cs), hword⟩

/-- Behind a word stands a token of blank space or an operator, or nothing. -/
theorem beginsApart_scan {s : List Char}
    (h : ∀ c ∈ s.head?, (isSpace c || isOperator c) = true) (p : Position) :
    BeginsApart (scan p s) := by
  cases s with
  | nil =>
    rw [scan]
    rintro _ ⟨⟩
  | cons c cs =>
    have hc := h c rfl
    rw [scan]
    rcases next_cases p c cs with ⟨-, e⟩ | ⟨rfl, -⟩ | ⟨-, e⟩ | ⟨hword, -⟩
    · rw [e]
      rintro _ ⟨rfl⟩
      exact .inl rfl
    · exact absurd hc (by decide)
    · rw [e]
      rintro _ ⟨rfl⟩
      exact .inr rfl
    · rw [hword] at hc
      cases hc

/-! ## Open headers -/

theorem InHeader.append {tokens more : List Token} (h : InHeader tokens)
    (hmore : ∀ t ∈ more, LeavesHeader t) : InHeader (tokens ++ more) := by
  obtain ⟨front, header, between, rfl, hkind, htext, hbetween⟩ := h
  refine ⟨front, header, between ++ more, ?_, hkind, htext, ?_⟩
  · rw [List.append_assoc, List.cons_append]
  · intro t ht
    exact (List.mem_append.1 ht).elim (hbetween t) (hmore t)

theorem InHeader.concat {tokens : List Token} {t : Token} (h : InHeader tokens)
    (ht : LeavesHeader t) : InHeader (tokens ++ [t]) :=
  h.append (List.forall_mem_singleton.2 ht)

theorem inHeader_operator {tokens : List Token} {p : Position}
    (h : p.header = true → InHeader tokens) (op : List Char)
    (hp : (afterOperator p op).header = true) :
    InHeader (tokens ++ [.ofChars .operator op]) := by
  have hends := endsCommand_operator op
  rw [isRedirection_operator] at hends
  unfold afterOperator at hp
  split at hp
  · next hredirection =>
    rw [hredirection, Bool.not_true, Bool.and_false] at hends
    exact (h hp).concat ⟨nofun, nofun, hends⟩
  · split at hp
    · next hclose =>
      rw [bne, hclose, Bool.not_true, Bool.false_and] at hends
      exact (h hp).concat ⟨nofun, nofun, hends⟩
    · cases hp

theorem inHeader_word {tokens : List Token} {p : Position} (hsettled : Settled tokens p)
    (h : p.header = true → InHeader tokens) {segments : List Segment} (hne : segments ≠ [])
    (hp : (classify p segments).2.header = true) :
    InHeader (tokens ++ (classify p segments).1) := by
  have hword := (classify_spec p hne).2.1
  have hclassified := classified_classify p segments
  generalize classify p segments = r at hword hclassified hp
  -- Only a word of commands or keywords can close a header.
  have hkeep : ∀ kind : TokenKind, kind ≠ .keyword → kind ≠ .command →
      r.1 = segmentTokens kind kind segments → p.header = true → InHeader (tokens ++ r.1) := by
    intro kind hkeyword hcommand hr hheader
    refine (h hheader).append fun t ht => ⟨?_, ?_, endsCommand_of_isWord (hword t ht)⟩
    · exact kind_ne_of_mem hkeyword (by decide) (by decide) t (hr ▸ ht)
    · exact kind_ne_of_mem hcommand (by decide) (by decide) t (hr ▸ ht)
  cases hclassified with
  | target => exact hkeep .argument (by decide) (by decide) rfl hp
  | headerIn => cases hp
  | argument => exact hkeep .argument (by decide) (by decide) rfl hp
  | assignment => exact hkeep .var (by decide) (by decide) rfl hp
  | @keyword text =>
    exact ⟨tokens, ⟨.keyword, text⟩, [], rfl, rfl, List.contains_iff_mem.1 hp, nofun⟩
  | command hcommand =>
    rw [show p.header = false from hsettled.header hcommand] at hp
    cases hp

/-- Where a header is open its keyword stands behind, and nothing since has closed it. -/
theorem Reaches.inHeader {s rest : List Char} {tokens : List Token} {p : Position}
    (h : Reaches s tokens p rest) : p.header = true → InHeader tokens := by
  induction h with
  | start => exact nofun
  | @step tokens p c cs hreach ih =>
    intro hp
    rcases next_cases p c cs with ⟨-, e⟩ | ⟨-, e⟩ | ⟨-, e⟩ | ⟨hc, -, e⟩
    · rw [e] at hp ⊢
      dsimp only at hp ⊢
      generalize (c :: cs).takeWhile isSpace = space at hp ⊢
      have hends := endsCommand_space space
      unfold afterSpace at hp
      split at hp
      · cases hp
      · next hfeed =>
        rw [Bool.not_eq_true] at hfeed
        rw [hfeed] at hends
        exact (ih hp).concat ⟨nofun, nofun, hends⟩
    · rw [e] at hp ⊢
      exact (ih hp).concat ⟨nofun, nofun, endsCommand_comment _⟩
    · rw [e] at hp ⊢
      exact inHeader_operator ih _ hp
    · rw [e] at hp ⊢
      exact inHeader_word hreach.settled ih (word_ne_nil hc cs) hp

/-! ## Keywords of a text -/

/-- In a text without NUL characters a keyword is a whole word, one of the list or `in`; and an
`in` stands in a header that an earlier keyword has opened and nothing since has closed. -/
theorem tokenize_keywords {text : String} (h : '\x00' ∉ text.toList) :
    ∃ tokens, lexer.tokenize text = .ok tokens ∧
      ∀ front t behind, tokens = front ++ t :: behind → t.kind = .keyword →
        EndsApart front ∧ BeginsApart behind ∧ (t.text ∈ keywords ∨ t.text = "in") ∧
          (t.text = "in" → InHeader front) := by
  refine ⟨scan .start text.toList, tokenize_eq_ok_iff.2 ⟨h, rfl⟩, ?_⟩
  intro front t behind htokens hkind
  obtain ⟨before, q, c, cs, left, right, hreach, hnext, rfl, rfl⟩ := Reaches.exists_cut htokens
  obtain ⟨hword, rfl, rfl, hrest, htext⟩ := next_keyword hnext hkind
  rw [List.append_nil, List.nil_append]
  refine ⟨hreach.endsApart hword, beginsApart_scan hrest _, htext.imp_right And.left, fun hin => ?_⟩
  have hlist : "in" ∉ keywords := by decide
  rw [hin] at htext
  exact hreach.inHeader (htext.resolve_left hlist).2

/-- The `in` of a `case` over a redirection and a comment-like word; the second `in`, behind the
line feed, is a command. -/
theorem tokenize_keywords_case :
    let text := "case >a#b\tin\nin"
    let front : List Token := [⟨.keyword, "case"⟩, ⟨.whitespace, " "⟩, ⟨.operator, ">"⟩,
      ⟨.argument, "a#b"⟩, ⟨.whitespace, "\t"⟩]
    let behind : List Token := [⟨.whitespace, "\n"⟩, ⟨.command, "in"⟩]
    '\x00' ∉ text.toList ∧
      lexer.tokenize text = .ok (front ++ ⟨.keyword, "in"⟩ :: behind) ∧
      EndsApart front ∧ BeginsApart behind ∧ InHeader front := by
  intro text front behind
  have hnul : '\x00' ∉ text.toList := by decide
  have htokens : lexer.tokenize text = .ok (front ++ ⟨.keyword, "in"⟩ :: behind) :=
    tokenize_eq_ok_iff.2 ⟨hnul, by decide +kernel⟩
  obtain ⟨tokens, hok, hall⟩ := tokenize_keywords hnul
  obtain rfl := Except.ok.inj (htokens.symm.trans hok)
  obtain ⟨hends, hbegins, -, hheader⟩ := hall front ⟨.keyword, "in"⟩ behind rfl rfl
  exact ⟨hnul, htokens, hends, hbegins, hheader rfl⟩

end StepLog.Shell
