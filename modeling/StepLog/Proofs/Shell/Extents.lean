/-
  How far the tokens of a shell text reach.

  Each kind of token has an extent of its own (`Extent`): blank space and operators are as long
  as can be, a comment runs to the end of its line, a quoted string to the first quote that
  closes it, and what stands outside of quotes and parameters holds no character that would end
  it, unless a backslash protects that character. Which characters are protected is told from
  left to right (`shields`).

  Each part of a word is cut off by the function of its kind (`cutOff_of_word`) and fits that
  kind (`CutOff.fits`), and the tokens of a step are those of a word or a single one. Main
  statement: `tokenize_extents`.
-/
import StepLog.Proofs.Shell.Keywords

namespace StepLog.Shell

/-! ## Extents -/

/-- The characters of a text, each with whether a backslash protects it; `shielded` tells it of
the first. Without `escapes` a backslash protects nothing. -/
def shields (escapes : Bool) : Bool → List Char → List (Char × Bool)
  | _, [] => []
  | shielded, c :: cs =>
    (c, shielded) :: shields escapes (escapes && !shielded && c == '\\') cs

/-- No character that ends an unquoted run stands there unprotected. -/
def Unquoted (s : List Char) : Prop := ∀ c, (c, false) ∈ shields true false s → endsRun c = false

/-- The text behind an opening quote `q` ends at the first `q` that is not protected, or it is all
there is and has none. Only between double quotes a backslash protects. -/
def ClosesAt (q : Char) (body after : List Char) : Prop :=
  (∃ inner, shields (q == '"') false body = inner ++ [(q, false)] ∧ (q, false) ∉ inner) ∨
    (after = [] ∧ (q, false) ∉ shields (q == '"') false body)

/-- An operator of two characters, or one that forms none with the next character. -/
def LongestOperator (op after : List Char) : Prop :=
  (∃ c d, op = [c, d] ∧ (c, d) ∈ twoCharOperators) ∨
    ∃ c, op = [c] ∧ isOperator c = true ∧ ∀ d ∈ after.head?, (c, d) ∉ twoCharOperators

/-- What the kind of a token says of its text, given the tokens around it. -/
def Extent (front : List Token) (t : Token) (behind : List Token) : Prop :=
  match t.kind with
  | .whitespace =>
    (∀ c ∈ t.text.toList, c = ' ' ∨ c = '\t' ∨ c = '\r' ∨ c = '\n') ∧
      ∀ u ∈ behind.head?, u.kind ≠ .whitespace
  | .comment =>
    t.text.toList.head? = some '#' ∧ EndsApart front ∧ '\n' ∉ t.text.toList ∧
      ∀ c ∈ (charsOf behind).head?, c = '\n'
  | .operator => LongestOperator t.text.toList (charsOf behind)
  | .string =>
    ∃ q body, t.text.toList = q :: body ∧ isQuote q = true ∧ ClosesAt q body (charsOf behind)
  | .var => t.text.toList.head? = some '$' ∨ Unquoted t.text.toList
  | _ => Unquoted t.text.toList

/-! ## Parts of a word -/

theorem mem_of_mem_shields {escapes shielded : Bool} {s : List Char} {c : Char} {b : Bool}
    (h : (c, b) ∈ shields escapes shielded s) : c ∈ s := by
  induction s generalizing shielded with
  | nil => cases h
  | cons d ds ih =>
    rcases List.mem_cons.1 h with e | h
    · rw [(Prod.mk.inj e).1]
      exact List.mem_cons_self
    · exact List.mem_cons_of_mem d (ih h)

theorem unquoted_run (s : List Char) : Unquoted (run s).1 := by
  intro x hx
  fun_induction run s with
  | case1 => cases hx
  | case2 => cases hx
  | case3 c hc =>
    rw [(Prod.mk.inj (List.mem_singleton.1 hx)).1]
    exact Bool.eq_false_iff.2 hc
  | case4 => cases hx
  | case5 d ds hc ih =>
    rcases List.mem_cons.1 hx with e | hx
    · rw [(Prod.mk.inj e).1]
      exact Bool.eq_false_iff.2 hc
    · rcases List.mem_cons.1 hx with e | hx
      · cases e
      · exact ih hx
  | case6 c d ds hc hb ih =>
    rcases List.mem_cons.1 hx with e | hx
    · rw [(Prod.mk.inj e).1]
      exact Bool.eq_false_iff.2 hc
    · have hopen : (true && !false && c == '\\') = false := by simp [hb]
      rw [hopen] at hx
      exact ih hx

/-- Characters in front, none of them a closing quote. -/
theorem ClosesAt.of_append {q : Char} {body body' after : List Char} (h : ClosesAt q body after)
    (marks : List (Char × Bool)) (hmarks : (q, false) ∉ marks)
    (e : shields (q == '"') false body' = marks ++ shields (q == '"') false body) :
    ClosesAt q body' after := by
  rcases h with ⟨inner, hinner, hno⟩ | ⟨hafter, hno⟩
  · refine .inl ⟨marks ++ inner, ?_, ?_⟩
    · rw [e, hinner, List.append_assoc]
    · rw [List.mem_append, not_or]
      exact ⟨hmarks, hno⟩
  · refine .inr ⟨hafter, ?_⟩
    rw [e, List.mem_append, not_or]
    exact ⟨hmarks, hno⟩

theorem closesAt_quoted (q : Char) (s : List Char) :
    ClosesAt q (quoted q s).1 (quoted q s).2 := by
  fun_induction quoted q s with
  | case1 => exact .inr ⟨rfl, List.not_mem_nil⟩
  | case2 c =>
    by_cases hq : c = q
    · exact .inl ⟨[], by rw [hq]; rfl, List.not_mem_nil⟩
    · refine .inr ⟨rfl, fun h => hq ?_⟩
      exact (Prod.mk.inj (List.mem_singleton.1 h)).1.symm
  | case3 d ds => exact .inl ⟨[], rfl, List.not_mem_nil⟩
  | case4 c d ds hq hc ih =>
    obtain ⟨rfl, rfl⟩ := hc
    exact ih.of_append [('\\', false), (d, true)] (by simp) rfl
  | case5 c d ds hq hc ih =>
    refine ih.of_append [(c, false)] (by simp [Ne.symm hq]) ?_
    have hopen : (q == '"' && !false && c == '\\') = false := by
      rw [Bool.eq_false_iff]
      simpa [and_comm] using hc
    show (c, false) :: shields _ _ _ = _
    rw [hopen]
    rfl

/-- What the kind of a part of a word says of it, given the text behind it. -/
def Segment.Fits (after : List Char) : Segment → Prop
  | .plain t => Unquoted t
  | .quoted t => ∃ q body, t = q :: body ∧ isQuote q = true ∧ ClosesAt q body after
  | .parameter t => t.head? = some '$'

/-- The function that cuts a part off leaves the text `after` behind it. -/
inductive CutOff : Segment → List Char → Prop
  | quoted {q : Char} {cs : List Char} :
    isQuote q = true → CutOff (.quoted (q :: (Shell.quoted q cs).1)) (Shell.quoted q cs).2
  | parameter {cs : List Char} :
    CutOff (.parameter ('$' :: (Shell.parameter cs).1)) (Shell.parameter cs).2
  | plain {s : List Char} : CutOff (.plain (run s).1) (run s).2

theorem cutOff_of_word {s : List Char} {left right : List Segment} {seg : Segment}
    (e : (word s).1 = left ++ seg :: right) : CutOff seg (wordText right ++ (word s).2) := by
  have hempty : ∀ {left : List Segment}, [] ≠ left ++ seg :: right := fun h =>
    List.append_ne_nil_of_right_ne_nil _ (List.cons_ne_nil _ _) h.symm
  fun_induction word s generalizing left with
  | case1 => exact absurd e hempty
  | case2 => exact absurd e hempty
  | case3 c cs _ hq ih =>
    cases left with
    | nil =>
      obtain ⟨rfl, rfl⟩ := List.cons.inj e
      rw [having_snd, wordText_append_rest]
      exact .quoted hq
    | cons seg' left => exact ih (List.cons.inj e).2
  | case4 cs _ _ ih =>
    cases left with
    | nil =>
      obtain ⟨rfl, rfl⟩ := List.cons.inj e
      rw [having_snd, wordText_append_rest]
      exact .parameter
    | cons seg' left => exact ih (List.cons.inj e).2
  | case5 c cs _ _ _ ih =>
    cases left with
    | nil =>
      obtain ⟨rfl, rfl⟩ := List.cons.inj e
      rw [having_snd, wordText_append_rest]
      exact .plain
    | cons seg' left => exact ih (List.cons.inj e).2

theorem CutOff.fits {seg : Segment} {after : List Char} (h : CutOff seg after) :
    seg.Fits after := by
  cases h with
  | @quoted q cs hq => exact ⟨q, (Shell.quoted q cs).1, rfl, hq, closesAt_quoted q cs⟩
  | parameter => rfl
  | @plain s => exact unquoted_run s

/-! ## Tokens of a word -/

/-- The token of a part; a plain part has the kind `plain`. -/
def Segment.token (plain : TokenKind) : Segment → Token
  | .plain t => .ofChars plain t
  | .quoted t => .ofChars .string t
  | .parameter t => .ofChars .var t

theorem segmentTokens_cons (first later : TokenKind) (seg : Segment) (segments : List Segment) :
    segmentTokens first later (seg :: segments) =
      seg.token first :: segmentTokens later later segments := by
  cases seg <;> rfl

theorem charsOf_segmentTokens (first later : TokenKind) (segments : List Segment) :
    charsOf (segmentTokens first later segments) = wordText segments := by
  induction segments generalizing first with
  | nil => rfl
  | cons seg segments ih =>
    rw [segmentTokens_cons, charsOf_cons, ih, wordText_cons]
    congr 1
    cases seg <;> exact toList_text_ofChars _ _

/-- A token of a word is that of a part, and stands in front of the parts behind. -/
theorem exists_part {first later : TokenKind} {segments : List Segment} {left right : List Token}
    {t : Token} (e : segmentTokens first later segments = left ++ t :: right) :
    ∃ before seg after plain, segments = before ++ seg :: after ∧
      (plain = first ∨ plain = later) ∧ t = seg.token plain ∧ charsOf right = wordText after := by
  induction segments generalizing first left with
  | nil => exact absurd e.symm (List.append_ne_nil_of_right_ne_nil _ (List.cons_ne_nil _ _))
  | cons seg segments ih =>
    rw [segmentTokens_cons] at e
    cases left with
    | nil =>
      obtain ⟨rfl, rfl⟩ := List.cons.inj e
      exact ⟨[], seg, segments, first, rfl, .inl rfl, rfl, charsOf_segmentTokens _ _ _⟩
    | cons t' left =>
      obtain ⟨before, seg', after, plain, rfl, hplain, ht, hright⟩ := ih (List.cons.inj e).2
      exact ⟨seg :: before, seg', after, plain, rfl, .inr (hplain.elim id id), ht, hright⟩

/-- A kind that the plain parts of a word can have. -/
def PlainKind (kind : TokenKind) : Prop := kind.isWord = true ∧ kind ≠ .string

theorem extent_of_unquoted {t : Token} (hkind : PlainKind t.kind) (h : Unquoted t.text.toList)
    (front behind : List Token) : Extent front t behind := by
  obtain ⟨hword, hstring⟩ := hkind
  unfold Extent
  split
  · next e => rw [e] at hword; cases hword
  · next e => rw [e] at hword; cases hword
  · next e => rw [e] at hword; cases hword
  · next e => exact absurd e hstring
  · exact .inr h
  · exact h

theorem extent_of_fits {seg : Segment} {plain : TokenKind} (hplain : PlainKind plain)
    {behind : List Token} (h : seg.Fits (charsOf behind)) (front : List Token) :
    Extent front (seg.token plain) behind := by
  cases seg with
  | plain t =>
    refine extent_of_unquoted hplain ?_ front behind
    rw [Segment.token, toList_text_ofChars]
    exact h
  | quoted t =>
    show ∃ q body, (Token.ofChars .string t).text.toList = q :: body ∧ _
    rw [toList_text_ofChars]
    exact h
  | parameter t =>
    show (Token.ofChars .var t).text.toList.head? = some '$' ∨ _
    rw [toList_text_ofChars]
    exact .inl h

/-- No keyword holds a character that would have to be protected. -/
theorem unquoted_keyword {text : String} (h : text ∈ keywords) : Unquoted text.toList := by
  have hall : (keywords.all fun w => w.toList.all (endsRun · == false)) = true := by decide
  have hword := List.all_eq_true.1 hall text h
  exact fun c hc => eq_of_beq (List.all_eq_true.1 hword c (mem_of_mem_shields hc))

/-- A token of a word is that of a part, unless the word is a keyword. -/
theorem token_of_word (p : Position) {s : List Char} {left right : List Token} {t : Token}
    (e : (classify p (word s).1).1 = left ++ t :: right) :
    (∃ seg plain, PlainKind plain ∧ t = seg.token plain ∧
      CutOff seg (charsOf right ++ (word s).2)) ∨
    (PlainKind t.kind ∧ t.text ∈ keywords) := by
  have hparts : ∀ {first other : TokenKind}, PlainKind first → PlainKind other →
      segmentTokens first other (word s).1 = left ++ t :: right →
      ∃ seg plain, PlainKind plain ∧ t = seg.token plain ∧
        CutOff seg (charsOf right ++ (word s).2) := by
    intro first other hfirst hother hsplit
    obtain ⟨before, seg, after, plain, hword, hplain, ht, hright⟩ := exists_part hsplit
    have hcut := cutOff_of_word hword
    rw [← hright] at hcut
    exact ⟨seg, plain, hplain.elim (· ▸ hfirst) (· ▸ hother), ht, hcut⟩
  have hclassified := classified_classify p (word s).1
  generalize classify p (word s).1 = r at e hclassified
  have hargument : PlainKind .argument := ⟨rfl, nofun⟩
  have hkeyword : PlainKind .keyword := ⟨rfl, nofun⟩
  have hvar : PlainKind .var := ⟨rfl, nofun⟩
  cases hclassified with
  | target => exact .inl (hparts hargument hargument e)
  | headerIn => exact .inl (hparts hkeyword hkeyword e)
  | argument => exact .inl (hparts hargument hargument e)
  | assignment => exact .inl (hparts hvar hvar e)
  | keyword _ _ hmem =>
    obtain ⟨rfl, -⟩ := eq_of_singleton e
    exact .inr ⟨hkeyword, hmem⟩
  | command =>
    have hcommand : PlainKind .command := ⟨rfl, nofun⟩
    exact .inl (hparts hcommand hargument e)

/-- The tokens of a word have the extents of their kinds, whatever the word is taken for. -/
theorem extent_of_word (p : Position) {s : List Char} {left right : List Token} {t : Token}
    (e : (classify p (word s).1).1 = left ++ t :: right) {later : List Token}
    (hlater : charsOf later = (word s).2) (front : List Token) :
    Extent front t (right ++ later) := by
  rcases token_of_word p e with ⟨seg, plain, hplain, rfl, hcut⟩ | ⟨hkind, hkeyword⟩
  · rw [← hlater, ← charsOf_append] at hcut
    exact extent_of_fits hplain hcut.fits front
  · exact extent_of_unquoted hkind (unquoted_keyword hkeyword) front _

/-! ## Tokens of a text -/

theorem longestOperator_operator {c : Char} (hc : isOperator c = true) (cs : List Char) :
    LongestOperator (operator c cs).1 (operator c cs).2 := by
  cases cs with
  | nil => exact .inr ⟨c, rfl, hc, nofun⟩
  | cons d ds =>
    rw [operator]
    split
    · next h => exact .inl ⟨c, d, rfl, List.contains_iff_mem.1 h⟩
    · next h =>
      refine .inr ⟨c, rfl, hc, ?_⟩
      rintro _ ⟨rfl⟩ hmem
      exact h (List.contains_iff_mem.2 hmem)

/-- Blank space that is cut off is cut off whole. -/
theorem head_scan_ne_whitespace {s : List Char} (h : ∀ c ∈ s.head?, isSpace c = false)
    (p : Position) : ∀ u ∈ (scan p s).head?, u.kind ≠ .whitespace := by
  cases s with
  | nil =>
    rw [scan]
    rintro _ ⟨⟩
  | cons c cs =>
    have hc := h c rfl
    intro u hu
    rw [scan, List.head?_append] at hu
    rcases next_cases p c cs with ⟨hspace, -⟩ | ⟨-, e⟩ | ⟨-, e⟩ | ⟨hword, -, e⟩
    · rw [hc] at hspace
      cases hspace
    · rw [e] at hu
      obtain rfl := Option.some.inj hu
      show TokenKind.comment ≠ .whitespace
      decide
    · rw [e] at hu
      obtain rfl := Option.some.inj hu
      show TokenKind.operator ≠ .whitespace
      decide
    · obtain ⟨hne, hall, -⟩ := classify_spec p (word_ne_nil hword cs)
      rw [e, List.head?_eq_some_head hne] at hu
      obtain rfl := Option.some.inj hu
      intro hkind
      have hisWord := hall _ (List.head_mem hne)
      rw [hkind] at hisWord
      cases hisWord

theorem extent_of_space (s : List Char) (front : List Token) (p : Position) :
    Extent front (.ofChars .whitespace (s.takeWhile isSpace)) (scan p (s.dropWhile isSpace)) := by
  refine ⟨fun d hd => ?_, head_scan_ne_whitespace (fun d hd => ?_) p⟩
  · rw [toList_text_ofChars] at hd
    have hspace := List.all_eq_true.1 List.all_takeWhile d hd
    simpa [isSpace, or_assoc] using hspace
  · exact stop_of_dropWhile hd

theorem extent_of_comment {front : List Token} (hfront : EndsApart front) (cs : List Char)
    (p : Position) :
    Extent front (.ofChars .comment (('#' :: cs).takeWhile (· ≠ '\n')))
      (scan p (('#' :: cs).dropWhile (· ≠ '\n'))) := by
  have hhead : ('#' :: cs).takeWhile (· ≠ '\n') = '#' :: cs.takeWhile (· ≠ '\n') :=
    List.takeWhile_cons_of_pos (by decide)
  have htext := toList_text_ofChars .comment (('#' :: cs).takeWhile (· ≠ '\n'))
  refine ⟨?_, hfront, fun hfeed => ?_, fun d hd => ?_⟩
  · rw [htext, hhead]
    rfl
  · rw [htext] at hfeed
    exact absurd (List.all_eq_true.1 List.all_takeWhile _ hfeed) (by decide)
  · rw [(cuts_scan p _).chars] at hd
    simpa using stop_of_dropWhile hd

/-- In a text without NUL characters every token has the extent of its kind. -/
theorem tokenize_extents {text : String} (h : '\x00' ∉ text.toList) :
    ∃ tokens, lexer.tokenize text = .ok tokens ∧
      ∀ front t behind, tokens = front ++ t :: behind → Extent front t behind := by
  refine ⟨scan .start text.toList, tokenize_eq_ok_iff.2 ⟨h, rfl⟩, ?_⟩
  intro front t behind htokens
  obtain ⟨before, q, c, cs, left, right, hreach, hnext, rfl, rfl⟩ := Reaches.exists_cut htokens
  have hsingle : ∀ t' : Token, (next q c cs).tokens = [t'] →
      t' = t ∧ before ++ left = before ∧ right = [] := by
    intro t' e
    rw [e] at hnext
    obtain ⟨rfl, rfl, hright⟩ := eq_of_singleton hnext
    exact ⟨rfl, List.append_nil before, hright⟩
  rcases next_cases q c cs with ⟨-, e⟩ | ⟨rfl, e⟩ | ⟨hc, e⟩ | ⟨-, -, e⟩
  · obtain ⟨rfl, hfront, rfl⟩ := hsingle _ (by rw [e])
    rw [e, hfront]
    exact extent_of_space (c :: cs) before _
  · obtain ⟨rfl, hfront, rfl⟩ := hsingle _ (by rw [e])
    rw [e, hfront]
    exact extent_of_comment (hreach.endsApart (by decide)) cs _
  · obtain ⟨rfl, hfront, rfl⟩ := hsingle _ (by rw [e])
    rw [e, hfront]
    show LongestOperator (Token.ofChars .operator (operator c cs).1).text.toList _
    rw [toList_text_ofChars, List.nil_append, (cuts_scan _ _).chars]
    exact longestOperator_operator hc cs
  · rw [e] at hnext ⊢
    exact extent_of_word q hnext (cuts_scan _ _).chars _

/-- A word of a protected space, a quoted part that a protected quote does not close and a
parameter; then operators and a comment. -/
theorem tokenize_extents_word :
    let text := "a\\ \"\\\"'\"$1>&;#"
    let front : List Token := [⟨.command, "a\\ "⟩]
    let behind : List Token := [⟨.var, "$1"⟩, ⟨.operator, ">&"⟩, ⟨.operator, ";"⟩, ⟨.comment, "#"⟩]
    '\x00' ∉ text.toList ∧
      lexer.tokenize text = .ok (front ++ ⟨.string, "\"\\\"'\""⟩ :: behind) ∧
      Extent front ⟨.string, "\"\\\"'\""⟩ behind := by
  intro text front behind
  have hnul : '\x00' ∉ text.toList := by decide
  have htokens : lexer.tokenize text = .ok (front ++ ⟨.string, "\"\\\"'\""⟩ :: behind) :=
    tokenize_eq_ok_iff.2 ⟨hnul, by decide +kernel⟩
  obtain ⟨tokens, hok, hall⟩ := tokenize_extents hnul
  obtain rfl := Except.ok.inj (htokens.symm.trans hok)
  exact ⟨hnul, htokens, hall front ⟨.string, "\"\\\"'\""⟩ behind rfl⟩

end StepLog.Shell
