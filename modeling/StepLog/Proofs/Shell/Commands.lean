/-
  One command name for each simple command.

  Every token is cut off by one step (`Reaches.exists_step`), so what holds of a token follows
  from what that step finds: the position and the tokens behind it. Two things hold wherever
  the lexer comes to. The start of a word stands at the front of the text or behind blank space
  or an operator (`Reaches.apart`). And between a command name and the end of its command the
  position takes neither a command name nor a keyword (`Reaches.settled`): to take a command
  name excludes an open header, and only what ends a command, or a keyword in front of one,
  makes the position take one again.

  Main statement: a command name is the first token of its word, and neither a command name nor
  a keyword follows it in its simple command (`tokenize_commands`).
-/
import StepLog.Proofs.Shell.Steps

namespace StepLog

/-- A token that ends a simple command: a control operator, or blank space with a line feed. -/
def Token.endsCommand (t : Token) : Bool :=
  t.kind == .operator && t.text != ")" && !t.isRedirection ||
    t.kind == .whitespace && t.text.toList.contains '\n'

namespace Shell

/-- A command name stands behind the last token that ends a command. -/
def inCommand (tokens : List Token) : Bool :=
  (tokens.reverse.takeWhile fun t => !t.endsCommand).any fun t => t.kind == .command

/-- The last token, if there is one, is blank space or an operator. -/
def EndsApart (tokens : List Token) : Prop :=
  ∀ t ∈ tokens.getLast?, t.kind = .whitespace ∨ t.kind = .operator

/-! ## Kinds of the parts of a word -/

theorem kind_of_mem_segmentTokens {first later : TokenKind} {segments : List Segment} {t : Token}
    (h : t ∈ segmentTokens first later segments) :
    t.kind = first ∨ t.kind = later ∨ t.kind = .string ∨ t.kind = .var := by
  induction segments generalizing first with
  | nil => cases h
  | cons seg segments ih =>
    rcases List.mem_cons.1 h with rfl | h
    · cases seg with
      | plain text => exact .inl rfl
      | quoted text => exact .inr (.inr (.inl rfl))
      | parameter text => exact .inr (.inr (.inr rfl))
    · exact .inr ((ih h).elim .inl id)

/-- In a word of one kind there is no other, but for quoted parts and parameters. -/
theorem kind_ne_of_mem {kind other : TokenKind} (h : kind ≠ other) (hstring : other ≠ .string)
    (hvar : other ≠ .var) {segments : List Segment} :
    ∀ t ∈ segmentTokens kind kind segments, t.kind ≠ other := by
  intro t ht hother
  have hcases := kind_of_mem_segmentTokens ht
  rw [hother] at hcases
  rcases hcases with e | e | e | e
  · exact h e.symm
  · exact h e.symm
  · exact hstring e
  · exact hvar e

/-- Only the first part of a word can be a command name. -/
theorem eq_nil_of_segmentTokens {segments : List Segment} {left right : List Token} {t : Token}
    (e : segmentTokens .command .argument segments = left ++ t :: right)
    (ht : t.kind = .command) : left = [] := by
  cases segments with
  | nil => exact absurd e.symm (List.append_ne_nil_of_right_ne_nil _ (List.cons_ne_nil _ _))
  | cons seg segments =>
    cases left with
    | nil => rfl
    | cons t' left =>
      have hmem : t ∈ segmentTokens .argument .argument segments := by
        rw [(List.cons.inj e).2]
        exact List.mem_append_right _ List.mem_cons_self
      have hkind := kind_of_mem_segmentTokens hmem
      rw [ht] at hkind
      simp at hkind

/-- No keyword in front of a command opens a header. -/
theorem not_header_of_commandPrefix {text : String} (h : commandPrefixes.contains text = true) :
    headerKeywords.contains text = false := by
  have hall : ∀ w ∈ commandPrefixes, headerKeywords.contains w = false := by decide
  exact hall text (List.contains_iff_mem.1 h)

/-! ## Histories -/

theorem inCommand_concat (tokens : List Token) (t : Token) :
    inCommand (tokens ++ [t]) = (!t.endsCommand && (t.kind == .command || inCommand tokens)) := by
  unfold inCommand
  rw [List.reverse_concat, List.takeWhile_cons]
  cases t.endsCommand with
  | true => rfl
  | false => exact List.any_cons

theorem inCommand_of_not_ends {t : Token} (h : t.endsCommand = false) (hkind : t.kind ≠ .command)
    (tokens : List Token) : inCommand (tokens ++ [t]) = inCommand tokens := by
  rw [inCommand_concat, h, beq_eq_false_iff_ne.2 hkind]
  rfl

theorem endsCommand_space (space : List Char) :
    (Token.ofChars .whitespace space).endsCommand = space.contains '\n' := by
  simp [Token.endsCommand, Token.ofChars]

theorem endsCommand_comment (comment : List Char) :
    (Token.ofChars .comment comment).endsCommand = false := rfl

theorem endsCommand_operator (op : List Char) :
    (Token.ofChars .operator op).endsCommand =
      (op != [')'] && !(Token.ofChars .operator op).isRedirection) := by
  have htext : (String.ofList op == ")") = (op == [')']) := by
    rw [Bool.eq_iff_iff, beq_iff_eq, beq_iff_eq, ← String.toList_inj, String.toList_ofList]
    rfl
  unfold Token.endsCommand bne
  show (true && !(String.ofList op == ")") && _ || false) = _
  rw [htext, Bool.true_and, Bool.or_false]

/-- A piece of a word ends no command. -/
theorem endsCommand_of_isWord {t : Token} (h : t.kind.isWord = true) : t.endsCommand = false := by
  have hoperator : t.kind ≠ .operator := by
    intro e
    rw [e] at h
    cases h
  have hspace : t.kind ≠ .whitespace := by
    intro e
    rw [e] at h
    cases h
  simp [Token.endsCommand, hoperator, hspace]

/-- Words without a command name change nothing about the command they stand in. -/
theorem inCommand_append_of_no_command {words : List Token}
    (hword : ∀ t ∈ words, t.kind.isWord = true) (h : ∀ t ∈ words, t.kind ≠ .command)
    (tokens : List Token) : inCommand (tokens ++ words) = inCommand tokens := by
  induction words generalizing tokens with
  | nil => rw [List.append_nil]
  | cons t words ih =>
    obtain ⟨hwordt, hwords⟩ := List.forall_mem_cons.1 hword
    obtain ⟨ht, hrest⟩ := List.forall_mem_cons.1 h
    rw [List.append_cons, ih hwords hrest,
      inCommand_of_not_ends (endsCommand_of_isWord hwordt) ht]

/-- Between a command name and a place outside every command something ends the command. -/
theorem exists_endsCommand {front between : List Token} {command : Token}
    (hkind : command.kind = .command) (h : inCommand (front ++ command :: between) = false) :
    ∃ t ∈ between, t.endsCommand = true := by
  refine Classical.byContradiction fun hno => ?_
  have hall : ∀ t ∈ (command :: between).reverse, (!t.endsCommand) = true := by
    intro t ht
    rw [List.mem_reverse, List.mem_cons] at ht
    rw [Bool.not_eq_true']
    rcases ht with rfl | ht
    · unfold Token.endsCommand
      rw [hkind]
      rfl
    · rw [← Bool.not_eq_true]
      exact fun hends => hno ⟨t, ht, hends⟩
  have hcommand : inCommand (front ++ command :: between) = true := by
    unfold inCommand
    rw [List.reverse_append, List.takeWhile_append_of_pos hall, List.any_append, Bool.or_eq_true,
      List.any_eq_true]
    exact .inl ⟨command, by simp, by rw [hkind]; rfl⟩
  rw [h] at hcommand
  cases hcommand

/-! ## Wherever the lexer comes to -/

/-- Behind a word stands blank space, an operator or nothing. -/
theorem head_of_word_rest (s : List Char) :
    ∀ c ∈ (word s).2.head?, (isSpace c || isOperator c) = true := by
  fun_induction word s with
  | case1 => rintro _ ⟨⟩
  | case2 c cs h =>
    rintro _ ⟨rfl⟩
    exact h
  | case3 c cs _ _ ih => exact ih
  | case4 cs _ _ ih => exact ih
  | case5 c cs _ _ _ ih => exact ih

/-- To take a command name excludes an open header, and behind the command name the position
takes neither a command name nor the `in` of a header. -/
structure Settled (tokens : List Token) (p : Position) : Prop where
  header : p.command = true → p.header = false
  closed : inCommand tokens = true → p.command = false ∧ p.header = false

namespace Settled

variable {tokens tokens' : List Token} {p p' : Position}

/-- A position that takes no more than before. -/
theorem weaken (h : Settled tokens p) (hin : inCommand tokens' = inCommand tokens)
    (hcommand : p'.command = true → p.command = true)
    (hheader : p'.header = true → p.header = true) : Settled tokens' p' where
  header hp' := by
    have hp := h.header (hcommand hp')
    rw [← Bool.not_eq_true] at hp ⊢
    exact mt hheader hp
  closed hin' := by
    rw [hin] at hin'
    obtain ⟨hp, hq⟩ := h.closed hin'
    rw [← Bool.not_eq_true] at hp hq ⊢
    rw [← Bool.not_eq_true]
    exact ⟨mt hcommand hp, mt hheader hq⟩

/-- A new command. -/
theorem fresh {t : Token} (h : t.endsCommand = true) (target : Bool) :
    Settled (tokens ++ [t]) ⟨true, target, false⟩ where
  header _ := rfl
  closed hin := by
    rw [inCommand_concat, h] at hin
    cases hin

theorem space (h : Settled tokens p) (space : List Char) :
    Settled (tokens ++ [.ofChars .whitespace space]) (afterSpace p space) := by
  have hends := endsCommand_space space
  unfold afterSpace
  split
  · next hfeed =>
    rw [hfeed] at hends
    exact fresh hends p.target
  · next hfeed =>
    rw [Bool.not_eq_true] at hfeed
    rw [hfeed] at hends
    exact h.weaken (inCommand_of_not_ends hends nofun tokens) id id

theorem operator (h : Settled tokens p) (op : List Char) :
    Settled (tokens ++ [.ofChars .operator op]) (afterOperator p op) := by
  have hends := endsCommand_operator op
  rw [isRedirection_operator] at hends
  unfold afterOperator
  split
  · next hredirection =>
    rw [hredirection, Bool.not_true, Bool.and_false] at hends
    exact h.weaken (inCommand_of_not_ends hends nofun tokens) id id
  · next hredirection =>
    rw [Bool.not_eq_true] at hredirection
    rw [hredirection, Bool.not_false, Bool.and_true] at hends
    split
    · next hclose =>
      rw [bne, hclose] at hends
      exact h.weaken (inCommand_of_not_ends hends nofun tokens) nofun id
    · next hclose =>
      rw [Bool.not_eq_true] at hclose
      rw [bne, hclose] at hends
      exact fresh hends p.target

theorem word (h : Settled tokens p) {segments : List Segment} (hne : segments ≠ []) :
    Settled (tokens ++ (classify p segments).1) (classify p segments).2 := by
  have hword := (classify_spec p hne).2.1
  have hclassified := classified_classify p segments
  generalize classify p segments = r at hword hclassified
  -- Apart from the words of a command that starts, no token is a command name.
  have hkeep : (∀ t ∈ r.1, t.kind ≠ .command) → inCommand (tokens ++ r.1) = inCommand tokens :=
    fun hno => inCommand_append_of_no_command hword hno tokens
  cases hclassified with
  | target => exact h.weaken (hkeep (kind_ne_of_mem (by decide) (by decide) (by decide))) id id
  | headerIn => exact h.weaken (hkeep (kind_ne_of_mem (by decide) (by decide) (by decide))) id nofun
  | argument => exact h.weaken (hkeep (kind_ne_of_mem (by decide) (by decide) (by decide))) id id
  | assignment => exact h.weaken (hkeep (kind_ne_of_mem (by decide) (by decide) (by decide))) id id
  | keyword hcommand =>
    refine ⟨not_header_of_commandPrefix, fun hin => ?_⟩
    rw [hkeep (List.forall_mem_singleton.2 nofun)] at hin
    rw [(h.closed hin).1] at hcommand
    cases hcommand
  | command hcommand => exact ⟨nofun, fun _ => ⟨rfl, h.header hcommand⟩⟩

end Settled

namespace Reaches

variable {s rest : List Char} {tokens : List Token} {p : Position}

/-- Every token that is still to come is one of a step. -/
theorem exists_step (h : Reaches s tokens p rest) {front behind : List Token} {t : Token}
    (e : scan p rest = front ++ t :: behind) :
    ∃ before q c cs left right, Reaches s before q (c :: cs) ∧
      (next q c cs).tokens = left ++ t :: right ∧ tokens ++ front = before ++ left := by
  fun_induction scan p rest generalizing tokens front with
  | case1 => exact absurd e.symm (List.append_ne_nil_of_right_ne_nil _ (List.cons_ne_nil _ _))
  | case2 p c cs ih =>
    -- The token comes with a later step, or is one of this step.
    rcases List.append_eq_append_iff.1 e with ⟨more, rfl, hscan⟩ | ⟨own, hown, hrest⟩
    · obtain ⟨before, q, c', cs', left, right, hreach, hnext, hfront⟩ := ih h.step hscan
      exact ⟨before, q, c', cs', left, right, hreach, hnext, by rw [← hfront, List.append_assoc]⟩
    · cases own with
      | nil =>
        have hscan : scan (next p c cs).position (next p c cs).rest = [] ++ t :: behind :=
          hrest.symm
        obtain ⟨before, q, c', cs', left, right, hreach, hnext, hfront⟩ := ih h.step hscan
        refine ⟨before, q, c', cs', left, right, hreach, hnext, ?_⟩
        rw [← hfront, hown, List.append_nil, List.append_nil]
      | cons t' own =>
        obtain ⟨rfl, -⟩ := List.cons.inj hrest
        exact ⟨tokens, p, c, cs, front, own, h, hown, rfl⟩

/-- Each token of a text is one of a step; what stands in front of it and behind it. -/
theorem exists_cut {front behind : List Token} {t : Token}
    (e : scan .start s = front ++ t :: behind) :
    ∃ before q c cs left right, Reaches s before q (c :: cs) ∧
      (next q c cs).tokens = left ++ t :: right ∧ front = before ++ left ∧
      behind = right ++ scan (next q c cs).position (next q c cs).rest := by
  obtain ⟨before, q, c, cs, left, right, hreach, hnext, hfront⟩ := Reaches.start.exists_step e
  rw [List.nil_append] at hfront
  refine ⟨before, q, c, cs, left, right, hreach, hnext, hfront, ?_⟩
  have hscan := hreach.step.scan_eq
  rw [e, hfront, hnext, List.append_assoc, List.append_assoc, List.append_assoc] at hscan
  exact (List.cons.inj (List.append_cancel_left (List.append_cancel_left hscan))).2

/-- What stands next is no word, or stands apart from what is behind. -/
theorem apart (h : Reaches s tokens p rest) :
    EndsApart tokens ∨ ∀ c ∈ rest.head?, (isSpace c || isOperator c) = true := by
  cases h with
  | start => exact .inl nofun
  | @step tokens p c cs _ =>
    have hconcat : ∀ t : Token, t.kind = .whitespace ∨ t.kind = .operator →
        EndsApart (tokens ++ [t]) := by
      intro t ht t' ht'
      rw [List.getLast?_concat] at ht'
      cases ht'
      exact ht
    rcases next_cases p c cs with ⟨-, e⟩ | ⟨-, e⟩ | ⟨-, e⟩ | ⟨-, -, e⟩
    · rw [e]
      exact .inl (hconcat _ (.inl rfl))
    · -- A comment ends in front of a line feed.
      rw [e]
      refine .inr fun c' hc' => ?_
      have hc : c' = '\n' := by simpa using stop_of_dropWhile hc'
      rw [hc]
      rfl
    · rw [e]
      exact .inl (hconcat _ (.inr rfl))
    · rw [e]
      exact .inr (head_of_word_rest (c :: cs))

/-- A word or a comment that is still to come stands apart from what is behind. -/
theorem endsApart {c : Char} {cs : List Char} (h : Reaches s tokens p (c :: cs))
    (hc : (isSpace c || isOperator c) = false) : EndsApart tokens := by
  refine h.apart.resolve_right fun hhead => ?_
  rw [hhead c rfl] at hc
  cases hc

theorem settled (h : Reaches s tokens p rest) : Settled tokens p := by
  induction h with
  | start => exact ⟨fun _ => rfl, nofun⟩
  | @step tokens p c cs _ ih =>
    rcases next_cases p c cs with ⟨-, e⟩ | ⟨-, e⟩ | ⟨-, e⟩ | ⟨hc, -, e⟩
    · rw [e]
      exact ih.space _
    · rw [e]
      exact ih.weaken (inCommand_of_not_ends (endsCommand_comment _) nofun tokens) id id
    · rw [e]
      exact ih.operator _
    · rw [e]
      exact ih.word (word_ne_nil hc cs)

end Reaches

/-! ## Where a command name comes from -/

theorem eq_of_singleton {left right : List Token} {t t' : Token} (e : [t'] = left ++ t :: right) :
    t' = t ∧ left = [] ∧ right = [] := by
  cases left with
  | nil => exact ⟨(List.cons.inj e).1, rfl, (List.cons.inj e).2.symm⟩
  | cons u left =>
    have hnil : [] = left ++ t :: right := (List.cons.inj e).2
    exact absurd hnil.symm (List.append_ne_nil_of_right_ne_nil _ (List.cons_ne_nil _ _))

/-- A word with a command name or a keyword is found where the position takes one. No command
name stands in front of it in its word. -/
theorem Classified.takes {p : Position} {segments : List Segment} {r : List Token × Position}
    (h : Classified p segments r) {left right : List Token} {t : Token}
    (e : r.1 = left ++ t :: right) (ht : t.kind = .command ∨ t.kind = .keyword) :
    (p.command = true ∨ p.header = true) ∧ (∀ u ∈ left, u.kind ≠ .command) ∧
      (t.kind = .command → left = []) := by
  have hmem : t ∈ r.1 := by
    rw [e]
    exact List.mem_append_right _ List.mem_cons_self
  have hleft : ∀ u ∈ left, u ∈ r.1 := by
    intro u hu
    rw [e]
    exact List.mem_append_left _ hu
  have hother : ∀ kind : TokenKind, kind ≠ .command → kind ≠ .keyword →
      r.1 ≠ segmentTokens kind kind segments := by
    intro kind hcommand hkeyword hr
    rw [hr] at hmem
    exact ht.elim (kind_ne_of_mem hcommand (by decide) (by decide) t hmem)
      (kind_ne_of_mem hkeyword (by decide) (by decide) t hmem)
  cases h with
  | target => exact absurd rfl (hother .argument (by decide) (by decide))
  | headerIn _ hheader =>
    have hno : ∀ u ∈ segmentTokens .keyword .keyword segments, u.kind ≠ .command :=
      kind_ne_of_mem (by decide) (by decide) (by decide)
    exact ⟨.inr hheader, fun u hu => hno u (hleft u hu),
      fun hcommand => absurd hcommand (hno t hmem)⟩
  | argument => exact absurd rfl (hother .argument (by decide) (by decide))
  | assignment => exact absurd rfl (hother .var (by decide) (by decide))
  | keyword hcommand =>
    obtain ⟨-, rfl, -⟩ := eq_of_singleton e
    exact ⟨.inl hcommand, nofun, fun _ => rfl⟩
  | command hcommand =>
    have hkind : t.kind = .command := by
      rcases ht with ht | ht
      · exact ht
      · have hcases := kind_of_mem_segmentTokens hmem
        rw [ht] at hcases
        simp at hcases
    obtain rfl := eq_nil_of_segmentTokens e hkind
    exact ⟨.inl hcommand, nofun, fun _ => rfl⟩

/-- A step that cuts a piece of a word off finds a word. -/
theorem next_of_isWord {p : Position} {c : Char} {cs : List Char} {left right : List Token}
    {t : Token} (e : (next p c cs).tokens = left ++ t :: right) (ht : t.kind.isWord = true) :
    (isSpace c || isOperator c) = false ∧ next p c cs =
      ⟨(classify p (word (c :: cs)).1).1, (classify p (word (c :: cs)).1).2,
        (word (c :: cs)).2⟩ := by
  have hno : ∀ t' : Token, t'.kind.isWord = false → (next p c cs).tokens ≠ [t'] := by
    intro t' hother hsingle
    rw [hsingle] at e
    rw [(eq_of_singleton e).1, ht] at hother
    cases hother
  rcases next_cases p c cs with ⟨-, hnext⟩ | ⟨-, hnext⟩ | ⟨-, hnext⟩ | ⟨hc, -, hnext⟩
  · exact absurd (by rw [hnext]) (hno (.ofChars .whitespace _) rfl)
  · exact absurd (by rw [hnext]) (hno (.ofChars .comment _) rfl)
  · exact absurd (by rw [hnext]) (hno (.ofChars .operator _) rfl)
  · exact ⟨hc, hnext⟩

/-- A step that cuts a command name or a keyword off finds a word, and a position that takes one.
In front of it in its word stand parts of the word, and no command name. -/
theorem next_takes {p : Position} {c : Char} {cs : List Char} {left right : List Token} {t : Token}
    (e : (next p c cs).tokens = left ++ t :: right) (ht : t.kind = .command ∨ t.kind = .keyword) :
    (isSpace c || isOperator c) = false ∧ (p.command = true ∨ p.header = true) ∧
      (∀ u ∈ left, u.kind.isWord = true ∧ u.kind ≠ .command) ∧
      (t.kind = .command → left = []) := by
  obtain ⟨hc, hnext⟩ := next_of_isWord e (by rcases ht with ht | ht <;> rw [ht] <;> rfl)
  have hclassify : (classify p (word (c :: cs)).1).1 = left ++ t :: right := by
    rw [← e, hnext]
  obtain ⟨htakes, hleft, hfirst⟩ := (classified_classify p _).takes hclassify ht
  have hword := (classify_spec p (word_ne_nil hc cs)).2.1
  rw [hclassify] at hword
  exact ⟨hc, htakes,
    fun u hu => ⟨hword u (List.mem_append_left _ hu), hleft u hu⟩, hfirst⟩

/-- In a text without NUL characters a command name is the first token of its word, and no other
command name and no keyword follows it before a token that ends its command. -/
theorem tokenize_commands {text : String} (h : '\x00' ∉ text.toList) :
    ∃ tokens, lexer.tokenize text = .ok tokens ∧
      ∀ front command behind, tokens = front ++ command :: behind → command.kind = .command →
        EndsApart front ∧
        ∀ between t rest, behind = between ++ t :: rest → t.kind = .command ∨ t.kind = .keyword →
          ∃ u ∈ between, u.endsCommand = true := by
  refine ⟨scan .start text.toList, tokenize_eq_ok_iff.2 ⟨h, rfl⟩, ?_⟩
  intro front command behind htokens hkind
  constructor
  · obtain ⟨before, q, c, cs, left, right, hreach, hnext, hfront⟩ :=
      Reaches.start.exists_step htokens
    obtain ⟨hword, -, -, hfirst⟩ := next_takes hnext (.inl hkind)
    rw [hfirst hkind, List.append_nil, List.nil_append] at hfront
    rw [hfront]
    rcases hreach.apart with hapart | hhead
    · exact hapart
    · rw [hhead c rfl] at hword
      cases hword
  · intro between t rest hbehind ht
    have hlater : scan .start text.toList = (front ++ command :: between) ++ t :: rest := by
      rw [htokens, hbehind, List.append_assoc]
      rfl
    obtain ⟨before, q, c, cs, left, right, hreach, hnext, hfront⟩ :=
      Reaches.start.exists_step hlater
    obtain ⟨-, htakes, hleft, -⟩ := next_takes hnext ht
    have hout : inCommand before = false := by
      rw [← Bool.not_eq_true]
      intro hin
      obtain ⟨hcommand, hheader⟩ := hreach.settled.closed hin
      rw [hcommand, hheader] at htakes
      cases htakes <;> contradiction
    have hwhole : inCommand (front ++ command :: between) = false := by
      rw [List.nil_append] at hfront
      rw [hfront, inCommand_append_of_no_command (fun u hu => (hleft u hu).1)
        (fun u hu => (hleft u hu).2), hout]
    exact exists_endsCommand hkind hwhole

/-- Within the command `x` the word `do` is no keyword; behind the `;` that ends it, it is. -/
theorem tokenize_commands_do :
    let text := "if x>a do; do"
    let front : List Token := [⟨.keyword, "if"⟩, ⟨.whitespace, " "⟩]
    let between : List Token := [⟨.operator, ">"⟩, ⟨.argument, "a"⟩, ⟨.whitespace, " "⟩,
      ⟨.argument, "do"⟩, ⟨.operator, ";"⟩, ⟨.whitespace, " "⟩]
    '\x00' ∉ text.toList ∧
      lexer.tokenize text =
        .ok (front ++ ⟨.command, "x"⟩ :: (between ++ [⟨.keyword, "do"⟩])) ∧
      EndsApart front ∧ ∃ u ∈ between, u.endsCommand = true := by
  intro text front between
  have hnul : '\x00' ∉ text.toList := by decide
  have htokens : lexer.tokenize text =
      .ok (front ++ ⟨.command, "x"⟩ :: (between ++ [⟨.keyword, "do"⟩])) :=
    tokenize_eq_ok_iff.2 ⟨hnul, by decide +kernel⟩
  obtain ⟨tokens, hok, hall⟩ := tokenize_commands hnul
  obtain rfl := Except.ok.inj (htokens.symm.trans hok)
  obtain ⟨hapart, hlater⟩ := hall front ⟨.command, "x"⟩ _ rfl rfl
  exact ⟨hnul, htokens, hapart, hlater between ⟨.keyword, "do"⟩ [] rfl (.inr rfl)⟩

end Shell

end StepLog
