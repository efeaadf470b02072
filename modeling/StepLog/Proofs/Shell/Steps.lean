/-
  The shell lexer step by step.

  `Reaches s tokens p rest` says that the lexer, started on `s`, comes to the position `p` with
  `rest` left to read, having cut off `tokens`. A step is one of four (`next_cases`), and one
  that leaves text behind does not depend on what follows its text (`next_append_right`). So
  what a text reaches, every longer text reaches too (`Reaches.append_right`). What a word is
  taken for is one of six (`Classified`).

  The flag that no operator clears is that of a redirection: it is up exactly if a redirection
  stands behind the last word (`Reaches.target_eq`).
-/
import StepLog.Proofs.Shell.Lossless

namespace StepLog

/-- A piece of a word, and nothing that stands between words. -/
def TokenKind.isWord : TokenKind → Bool
  | .whitespace | .comment | .operator => false
  | _ => true

/-- An operator that the next word is the target of. -/
def Token.isRedirection (t : Token) : Bool :=
  t.kind == .operator &&
    (t.text.toList.head? == some '<' || t.text.toList.head? == some '>' ||
      t.text.toList == ['&', '>'])

namespace Shell

/-- A redirection stands behind the last word, so its target is still to come. -/
def awaitsTarget (tokens : List Token) : Bool :=
  (tokens.reverse.takeWhile fun t => !t.kind.isWord).any Token.isRedirection

/-! ## What follows a part -/

theorem takeWhile_append_right {p : Char → Bool} {s : List Char} (h : s.dropWhile p ≠ [])
    (t : List Char) :
    (s ++ t).takeWhile p = s.takeWhile p ∧ (s ++ t).dropWhile p = s.dropWhile p ++ t := by
  induction s with
  | nil => exact absurd rfl h
  | cons c cs ih =>
    by_cases hc : p c = true
    · rw [List.dropWhile_cons_of_pos hc] at h
      obtain ⟨htake, hdrop⟩ := ih h
      simp [hc, htake, hdrop]
    · simp [hc]

theorem quoted_append_right {q : Char} {s : List Char} (h : (quoted q s).2 ≠ [])
    (t : List Char) : quoted q (s ++ t) = ((quoted q s).1, (quoted q s).2 ++ t) := by
  fun_induction quoted q s with
  | case1 => exact absurd rfl h
  | case2 => exact absurd rfl h
  | case3 d ds => simp [quoted]
  | case4 c d ds hq hc ih =>
    rw [List.cons_append, List.cons_append, quoted, if_neg hq, if_pos hc, ih h]
    rfl
  | case5 c d ds hq hc ih =>
    have hrest := ih h
    rw [List.cons_append] at hrest
    rw [List.cons_append, List.cons_append, quoted, if_neg hq, if_neg hc, hrest]
    rfl

theorem closed_append_right {o c : Char} {depth : Nat} {s : List Char}
    (h : (closed o c depth s).2 ≠ []) (t : List Char) :
    closed o c depth (s ++ t) = ((closed o c depth s).1, (closed o c depth s).2 ++ t) := by
  fun_induction closed o c depth s with
  | case1 => exact absurd rfl h
  | case2 depth cs ih => simp [closed, ih h, having]
  | case3 depth cs ho hd => simp [closed, ho, hd]
  | case4 depth cs ho hd ih => simp [closed, ho, hd, ih h, having]
  | case5 depth x xs ho hc ih => simp [closed, ho, hc, ih h, having]

theorem parameter_append_right {s : List Char} (h : (parameter s).2 ≠ []) (t : List Char) :
    parameter (s ++ t) = ((parameter s).1, (parameter s).2 ++ t) := by
  fun_cases parameter s with
  | case1 => exact absurd rfl h
  | case2 cs =>
    have hrest : (closed '{' '}' 1 cs).2 ≠ [] := by simpa [parameter] using h
    simp [parameter, closed_append_right hrest, having]
  | case3 cs =>
    have hrest : (closed '(' ')' 1 cs).2 ≠ [] := by simpa [parameter] using h
    simp [parameter, closed_append_right hrest, having]
  | case4 c cs hb hp hn =>
    have hrest : (c :: cs).dropWhile isNameChar ≠ [] := by simpa [parameter, hb, hp, hn] using h
    obtain ⟨htake, hdrop⟩ := takeWhile_append_right hrest t
    rw [List.cons_append] at htake hdrop
    simp [parameter, hb, hp, hn, htake, hdrop]
  | case5 c cs hb hp hn hd => simp [parameter, hb, hp, hn, hd]
  | case6 c cs hb hp hn hd => simp [parameter, hb, hp, hn, hd]

theorem run_append_right {s : List Char} (h : (run s).2 ≠ []) (t : List Char) :
    run (s ++ t) = ((run s).1, (run s).2 ++ t) := by
  fun_induction run s with
  | case1 => exact absurd rfl h
  | case2 c hc => cases t <;> simp [run, hc]
  | case3 c hc => exact absurd rfl h
  | case4 c d ds hc => simp [run, hc]
  | case5 d ds hc ih => simp [run, hc, ih h, having]
  | case6 c d ds hc hb ih =>
    have hrest := ih h
    rw [List.cons_append] at hrest
    simp [run, hc, hb, hrest, having]

theorem word_append_right {s : List Char} (h : (word s).2 ≠ []) (t : List Char) :
    word (s ++ t) = ((word s).1, (word s).2 ++ t) := by
  have hword : ∀ {r : List Char}, (word r).2 ≠ [] → r ≠ [] := by
    rintro r hr rfl
    exact hr (by simp [word])
  fun_induction word s with
  | case1 => exact absurd rfl h
  | case2 c cs hc => simp [word, hc]
  | case3 c cs hc hq ih =>
    have hpart := quoted_append_right (hword h) t
    simp [word, hc, hq, hpart, ih h, having]
  | case4 cs hc hq ih =>
    have hpart := parameter_append_right (hword h) t
    simp [word, hc, hq, hpart, ih h, having]
  | case5 c cs hc hq hd ih =>
    have hpart := run_append_right (hword h) t
    rw [List.cons_append] at hpart
    simp [word, hc, hq, hd, hpart, ih h, having]

theorem operator_append_right {c : Char} {cs : List Char} (h : (operator c cs).2 ≠ [])
    (t : List Char) : operator c (cs ++ t) = ((operator c cs).1, (operator c cs).2 ++ t) := by
  cases cs with
  | nil => exact absurd rfl h
  | cons d ds =>
    rw [List.cons_append, operator, operator]
    split <;> rfl

/-! ## One step -/

/-- What a step takes off the front: blank space, a comment, an operator or a word. -/
theorem next_cases (p : Position) (c : Char) (cs : List Char) :
    (isSpace c = true ∧ next p c cs =
      ⟨[.ofChars .whitespace ((c :: cs).takeWhile isSpace)],
        afterSpace p ((c :: cs).takeWhile isSpace), (c :: cs).dropWhile isSpace⟩) ∨
    (c = '#' ∧ next p c cs =
      ⟨[.ofChars .comment ((c :: cs).takeWhile (· ≠ '\n'))], p,
        (c :: cs).dropWhile (· ≠ '\n')⟩) ∨
    (isOperator c = true ∧ next p c cs =
      ⟨[.ofChars .operator (operator c cs).1], afterOperator p (operator c cs).1,
        (operator c cs).2⟩) ∨
    ((isSpace c || isOperator c) = false ∧ c ≠ '#' ∧ next p c cs =
      ⟨(classify p (word (c :: cs)).1).1, (classify p (word (c :: cs)).1).2,
        (word (c :: cs)).2⟩) := by
  unfold next
  split
  · next hs => exact .inl ⟨hs, rfl⟩
  · next hs =>
    split
    · next hc => exact .inr (.inl ⟨hc, rfl⟩)
    · next hc =>
      split
      · next ho => exact .inr (.inr (.inl ⟨ho, rfl⟩))
      · next ho => exact .inr (.inr (.inr ⟨by simp [hs, ho], hc, rfl⟩))

/-- A step that leaves text behind takes the same off the front whatever follows that text. -/
theorem next_append_right {p : Position} {c : Char} {cs : List Char}
    (h : (next p c cs).rest ≠ []) (t : List Char) :
    next p c (cs ++ t) =
      ⟨(next p c cs).tokens, (next p c cs).position, (next p c cs).rest ++ t⟩ := by
  unfold next at h ⊢
  rw [← List.cons_append]
  split at h
  · next hs =>
    obtain ⟨htake, hdrop⟩ := takeWhile_append_right h t
    rw [if_pos hs, if_pos hs, htake, hdrop]
  · next hs =>
    rw [if_neg hs, if_neg hs]
    split at h
    · next hc =>
      obtain ⟨htake, hdrop⟩ := takeWhile_append_right h t
      rw [if_pos hc, if_pos hc, htake, hdrop]
    · next hc =>
      rw [if_neg hc, if_neg hc]
      split at h
      · next ho => rw [if_pos ho, if_pos ho, operator_append_right h]
      · next ho => rw [if_neg ho, if_neg ho, word_append_right h]

/-! ## Steps one after the other -/

/-- Started on `s`, the lexer comes to position `p` with `rest` to read, `tokens` behind it. -/
inductive Reaches (s : List Char) : List Token → Position → List Char → Prop
  | start : Reaches s [] .start s
  | step {tokens : List Token} {p : Position} {c : Char} {cs : List Char} :
    Reaches s tokens p (c :: cs) →
    Reaches s (tokens ++ (next p c cs).tokens) (next p c cs).position (next p c cs).rest

namespace Reaches

variable {s rest : List Char} {tokens : List Token} {p : Position}

/-- The tokens of the text are those so far and those of what is left. -/
theorem scan_eq (h : Reaches s tokens p rest) : scan .start s = tokens ++ scan p rest := by
  induction h with
  | start => rfl
  | step _ ih => rw [ih, scan, List.append_assoc]

theorem append_right (h : Reaches s tokens p rest) (hr : rest ≠ []) (t : List Char) :
    Reaches (s ++ t) tokens p (rest ++ t) := by
  induction h with
  | start => exact .start
  | @step tokens p c cs _ ih =>
    have hbefore : Reaches (s ++ t) tokens p (c :: (cs ++ t)) := ih (List.cons_ne_nil c cs)
    have hstep := hbefore.step
    rwa [next_append_right hr] at hstep

/-- The lexer comes to a last step. -/
theorem exists_last (h : Reaches s tokens p rest) (hr : rest ≠ []) :
    ∃ front q c cs, Reaches s front q (c :: cs) ∧ (next q c cs).rest = [] := by
  fun_induction scan p rest generalizing tokens with
  | case1 => exact absurd rfl hr
  | case2 p c cs ih =>
    by_cases hlast : (next p c cs).rest = []
    · exact ⟨tokens, p, c, cs, h, hlast⟩
    · exact ih h.step hlast

end Reaches

/-- The lexer accepts the texts without NUL characters and scans them from the start. -/
theorem tokenize_eq_ok_iff {text : String} {tokens : List Token} :
    lexer.tokenize text = .ok tokens ↔
      '\x00' ∉ text.toList ∧ scan .start text.toList = tokens := by
  by_cases h : '\x00' ∈ text.toList
  · obtain ⟨offset, hn⟩ := exists_firstNul h
    have e : lexer.tokenize text = .error ⟨"shell", .nul offset⟩ := tokenize_of_firstNul _ _ hn
    rw [e]
    exact ⟨nofun, fun hs => absurd h hs.1⟩
  · have e : lexer.tokenize text = .ok (scan .start text.toList) := tokenize_of_no_nul _ _ h
    rw [e, Except.ok.injEq]
    exact ⟨fun hs => ⟨h, hs⟩, And.right⟩

/-! ## What a word is taken for -/

/-- What `classify` makes of a word, case by case. -/
inductive Classified (p : Position) (segments : List Segment) : List Token × Position → Prop
  | target :
    p.target = true →
    Classified p segments (segmentTokens .argument .argument segments, { p with target := false })
  | headerIn :
    p.command = false → p.header = true → wordText segments = "in".toList → p.target = false →
    Classified p segments (segmentTokens .keyword .keyword segments, { p with header := false })
  | argument :
    p.command = false → p.target = false →
    Classified p segments (segmentTokens .argument .argument segments, p)
  | assignment :
    p.command = true → isAssignment (wordText segments) = true → p.target = false →
    Classified p segments (segmentTokens .var .var segments, p)
  | keyword {text : String} :
    p.command = true → segments.length = 1 → text ∈ keywords → text.toList = wordText segments →
    p.target = false →
    Classified p segments ([⟨.keyword, text⟩],
      { p with command := commandPrefixes.contains text, header := headerKeywords.contains text })
  | command :
    p.command = true → p.target = false →
    Classified p segments (segmentTokens .command .argument segments, { p with command := false })

theorem classified_classify (p : Position) (segments : List Segment) :
    Classified p segments (classify p segments) := by
  unfold classify
  dsimp only
  split
  · next h => exact .target h
  · next htarget =>
    rw [Bool.not_eq_true] at htarget
    split
    · next hcommand =>
      rw [Bool.not_eq_true'] at hcommand
      split
      · next hin =>
        rw [Bool.and_eq_true, beq_iff_eq] at hin
        have hword : wordText segments = "in".toList := by
          rw [← hin.2, String.toList_ofList]
        exact .headerIn hcommand hin.1 hword htarget
      · exact .argument hcommand htarget
    · next hcommand =>
      rw [Bool.not_eq_true', Bool.not_eq_false] at hcommand
      split
      · next h => exact .assignment hcommand h htarget
      · split
        · next h =>
          rw [Bool.and_eq_true, beq_iff_eq, List.contains_iff_mem] at h
          exact .keyword hcommand h.1 h.2 String.toList_ofList htarget
        · exact .command hcommand htarget

theorem segmentTokens_ne_nil {first later : TokenKind} {segments : List Segment}
    (h : segments ≠ []) : segmentTokens first later segments ≠ [] := by
  cases segments with
  | nil => exact absurd rfl h
  | cons seg segments => exact List.cons_ne_nil _ _

theorem isWord_of_mem_segmentTokens {first later : TokenKind} (hf : first.isWord = true)
    (hl : later.isWord = true) {segments : List Segment} {t : Token}
    (h : t ∈ segmentTokens first later segments) : t.kind.isWord = true := by
  induction segments generalizing first with
  | nil => cases h
  | cons seg segments ih =>
    rcases List.mem_cons.1 h with rfl | h
    · cases seg with
      | plain text => exact hf
      | quoted text => rfl
      | parameter text => rfl
    · exact ih hl h

/-- A word becomes tokens of its own kinds, at least one, and takes the place of a target. -/
theorem classify_spec (p : Position) {segments : List Segment} (h : segments ≠ []) :
    (classify p segments).1 ≠ [] ∧ (∀ t ∈ (classify p segments).1, t.kind.isWord = true) ∧
      (classify p segments).2.target = false := by
  have hne : ∀ first later, segmentTokens first later segments ≠ [] :=
    fun _ _ => segmentTokens_ne_nil h
  have hword : ∀ first later : TokenKind, first.isWord = true → later.isWord = true →
      ∀ t ∈ segmentTokens first later segments, t.kind.isWord = true :=
    fun _ _ hf hl _ ht => isWord_of_mem_segmentTokens hf hl ht
  have hclassified := classified_classify p segments
  generalize classify p segments = r at hclassified
  cases hclassified with
  | target => exact ⟨hne _ _, hword _ _ rfl rfl, rfl⟩
  | headerIn _ _ _ htarget => exact ⟨hne _ _, hword _ _ rfl rfl, htarget⟩
  | argument _ htarget => exact ⟨hne _ _, hword _ _ rfl rfl, htarget⟩
  | assignment _ _ htarget => exact ⟨hne _ _, hword _ _ rfl rfl, htarget⟩
  | keyword _ _ _ _ htarget =>
    exact ⟨List.cons_ne_nil _ _, List.forall_mem_singleton.2 rfl, htarget⟩
  | command _ htarget => exact ⟨hne _ _, hword _ _ rfl rfl, htarget⟩

theorem word_ne_nil {c : Char} (h : (isSpace c || isOperator c) = false) (cs : List Char) :
    (word (c :: cs)).1 ≠ [] := by
  unfold word
  rw [if_neg (by simp [h])]
  split
  · exact List.cons_ne_nil _ _
  · split
    · exact List.cons_ne_nil _ _
    · exact List.cons_ne_nil _ _

/-- A step cuts off one token that is no word, or the tokens of a word. -/
theorem next_tokens (p : Position) (c : Char) (cs : List Char) :
    (∃ t, t.kind.isWord = false ∧ (next p c cs).tokens = [t]) ∨
      ((next p c cs).tokens ≠ [] ∧ ∀ t ∈ (next p c cs).tokens, t.kind.isWord = true) := by
  rcases next_cases p c cs with ⟨-, e⟩ | ⟨-, e⟩ | ⟨-, e⟩ | ⟨hc, -, e⟩
  · exact .inl ⟨_, rfl, by rw [e]⟩
  · exact .inl ⟨_, rfl, by rw [e]⟩
  · exact .inl ⟨_, rfl, by rw [e]⟩
  · obtain ⟨hne, hword, -⟩ := classify_spec p (word_ne_nil hc cs)
    rw [e]
    exact .inr ⟨hne, hword⟩

/-! ## Redirections -/

theorem awaitsTarget_concat (tokens : List Token) (t : Token) :
    awaitsTarget (tokens ++ [t]) =
      (!t.kind.isWord && (t.isRedirection || awaitsTarget tokens)) := by
  unfold awaitsTarget
  rw [List.reverse_concat, List.takeWhile_cons]
  cases t.kind.isWord with
  | true => rfl
  | false => exact List.any_cons

/-- A word is the target that a redirection before it awaits. -/
theorem awaitsTarget_append_words {words : List Token} (hne : words ≠ [])
    (h : ∀ t ∈ words, t.kind.isWord = true) (tokens : List Token) :
    awaitsTarget (tokens ++ words) = false := by
  have hlast : (words.getLast hne).kind.isWord = true := h _ (List.getLast_mem hne)
  rw [← List.dropLast_concat_getLast hne, ← List.append_assoc, awaitsTarget_concat, hlast]
  rfl

theorem isRedirection_operator (op : List Char) :
    (Token.ofChars .operator op).isRedirection =
      (op.head? == some '<' || op.head? == some '>' || op == ['&', '>']) := by
  simp [Token.isRedirection, Token.ofChars]

/-- The target flag is up exactly if a redirection stands behind the last word. -/
theorem Reaches.target_eq {s rest : List Char} {tokens : List Token} {p : Position}
    (h : Reaches s tokens p rest) : p.target = awaitsTarget tokens := by
  induction h with
  | start => rfl
  | @step tokens p c cs _ ih =>
    rcases next_cases p c cs with ⟨-, e⟩ | ⟨-, e⟩ | ⟨-, e⟩ | ⟨hc, -, e⟩
    · rw [e, awaitsTarget_concat]
      show (afterSpace p _).target = awaitsTarget tokens
      unfold afterSpace
      split <;> exact ih
    · rw [e, awaitsTarget_concat]
      exact ih
    · rw [e, awaitsTarget_concat, isRedirection_operator, ← ih]
      unfold afterOperator
      dsimp only
      split
      · next hr => rw [hr]; rfl
      · next hr =>
        rw [Bool.not_eq_true] at hr
        rw [hr]
        split <;> rfl
    · obtain ⟨hne, hword, htarget⟩ := classify_spec p (word_ne_nil hc cs)
      rw [e, htarget, awaitsTarget_append_words hne hword]

end Shell

end StepLog
