/-
  Which lines are literals.

  The tokens of a line that opens a block scalar end in a block indicator, with or without a
  comment behind it (`endsInIndicator_tokens`), and a line outside every block scalar has the
  tokens that it has as a text by itself (`tokenize_line`) and no literal among them. So whether a
  line is a literal is told by the lines in front of it, each read by itself: `InScalar` looks back
  for the line that opened the block, where the lexer carries its indentation along. Main
  statement: `tokenize_literals`.
-/
import StepLog.Proofs.Yaml.Parts

namespace StepLog.Yaml

/-! ## Block indicators -/

/-- `|` or `>`, then at most one digit from 1 on and at most one chomping sign, in either order. -/
def BlockIndicator (s : List Char) : Prop :=
  ∃ c digit sign, (c = '|' ∨ c = '>') ∧
    (digit = [] ∨ ∃ d : Char, '1' ≤ d ∧ d ≤ '9' ∧ digit = [d]) ∧
    (sign = [] ∨ sign = ['+'] ∨ sign = ['-']) ∧
    (s = c :: (digit ++ sign) ∨ s = c :: (sign ++ digit))

theorem isIndentDigit_iff (d : Char) : isIndentDigit d = true ↔ '1' ≤ d ∧ d ≤ '9' := by
  simp [isIndentDigit]

theorem isChomping_iff (c : Char) : isChomping c = true ↔ c = '+' ∨ c = '-' := by
  simp [isChomping]

theorem isBlockIndicator_iff (s : List Char) : isBlockIndicator s = true ↔ BlockIndicator s := by
  constructor
  · intro h
    cases s with
    | nil => cases h
    | cons c cs =>
      unfold isBlockIndicator at h
      rw [Bool.and_eq_true, Bool.or_eq_true, decide_eq_true_iff, decide_eq_true_iff] at h
      obtain ⟨hc, h⟩ := h
      split at h
      · exact ⟨c, [], [], hc, .inl rfl, .inl rfl, .inl rfl⟩
      · next a =>
        rw [Bool.or_eq_true, isChomping_iff, isIndentDigit_iff] at h
        rcases h with hsign | hdigit
        · refine ⟨c, [], [a], hc, .inl rfl, .inr ?_, .inl rfl⟩
          simpa using hsign
        · exact ⟨c, [a], [], hc, .inr ⟨a, hdigit.1, hdigit.2, rfl⟩, .inl rfl, .inl rfl⟩
      · next a b =>
        simp only [Bool.or_eq_true, Bool.and_eq_true, isChomping_iff, isIndentDigit_iff] at h
        rcases h with ⟨hsign, hdigit⟩ | ⟨hdigit, hsign⟩
        · refine ⟨c, [b], [a], hc, .inr ⟨b, hdigit.1, hdigit.2, rfl⟩, .inr ?_, .inr rfl⟩
          simpa using hsign
        · refine ⟨c, [a], [b], hc, .inr ⟨a, hdigit.1, hdigit.2, rfl⟩, .inr ?_, .inl rfl⟩
          simpa using hsign
      · cases h
  · rintro ⟨c, digit, sign, hc, hdigit, hsign, hs⟩
    have hfront : (decide (c = '|') || decide (c = '>')) = true := by simpa using hc
    rcases hdigit with rfl | ⟨d, hlow, hhigh, rfl⟩
    · rcases hsign with rfl | rfl | rfl
      all_goals
        rcases hs with rfl | rfl
        all_goals simp [isBlockIndicator, hfront, isChomping]
    · have hd : isIndentDigit d = true := (isIndentDigit_iff d).2 ⟨hlow, hhigh⟩
      rcases hsign with rfl | rfl | rfl
      all_goals
        rcases hs with rfl | rfl
        all_goals simp [isBlockIndicator, hfront, isChomping, hd]

/-! ## Tokens that open a block -/

/-- The tokens end in a block indicator, or in one with a comment behind it. -/
def EndsInIndicator (tokens : List Token) : Prop :=
  ∃ front indicator behind, tokens = front ++ ⟨.delimiter, indicator⟩ :: behind ∧
    BlockIndicator indicator.toList ∧
    (behind = [] ∨ ∃ gap comment, behind = [⟨.whitespace, gap⟩, ⟨.comment, comment⟩])

theorem EndsInIndicator.append (front : List Token) {tokens : List Token}
    (h : EndsInIndicator tokens) : EndsInIndicator (front ++ tokens) := by
  obtain ⟨more, indicator, behind, rfl, hrest⟩ := h
  exact ⟨front ++ more, indicator, behind, (List.append_assoc ..).symm, hrest⟩

theorem hasIndicator_of_endsInIndicator {tokens : List Token} (h : EndsInIndicator tokens) :
    hasIndicator tokens = true := by
  obtain ⟨front, indicator, behind, rfl, hindicator, -⟩ := h
  refine List.any_eq_true.2 ⟨⟨.delimiter, indicator⟩, by simp, ?_⟩
  simpa using (isBlockIndicator_iff _).2 hindicator

theorem endsInIndicator_valueTokens (text : List Char) :
    (valueTokens text).opensBlock = true → EndsInIndicator (valueTokens text).tokens := by
  have hchars : ∀ s, isBlockIndicator s = true →
      Token.of? .delimiter s = [⟨.delimiter, String.ofList s⟩] ∧
        BlockIndicator (String.ofList s).toList := by
    intro s h
    refine ⟨of?_of_ne_nil _ ?_, ?_⟩
    · rintro rfl
      cases h
    · rwa [String.toList_ofList, ← isBlockIndicator_iff]
  unfold valueTokens
  split
  · nofun
  · split
    · split
      · next h =>
        obtain ⟨htoken, hindicator⟩ := hchars _ h
        exact fun _ => ⟨[], _, [], htoken, hindicator, .inl rfl⟩
      · nofun
    · next front rest hcomment =>
      dsimp only
      split
      · next h =>
        obtain ⟨htoken, hindicator⟩ := hchars _ h
        obtain ⟨-, comment, rfl⟩ := beforeComment?_append hcomment
        have hgap : front.drop (Text.trimEnd front).length ++ (' ' :: '#' :: comment).take 1 ≠ [] :=
          List.append_ne_nil_of_right_ne_nil _ (List.cons_ne_nil _ _)
        rw [htoken, of?_of_ne_nil .whitespace hgap]
        exact fun _ => ⟨[], _, _, rfl, hindicator, .inr ⟨_, _, rfl⟩⟩
      · nofun

theorem endsInIndicator_entryTokens (text : List Char) :
    (entryTokens text).opensBlock = true → EndsInIndicator (entryTokens text).tokens := by
  unfold entryTokens
  split
  · nofun
  · split
    · exact endsInIndicator_valueTokens text
    · exact fun h => (endsInIndicator_valueTokens _ h).append _

theorem endsInIndicator_tokens (line : Line) :
    EndsInIndicator line.tokens.tokens ↔ hasIndicator line.tokens.tokens = true := by
  refine ⟨hasIndicator_of_endsInIndicator, ?_⟩
  rw [← opensBlock_tokens]
  unfold Line.tokens
  dsimp only
  split
  · nofun
  · exact fun h => (endsInIndicator_entryTokens _ h).append _

/-! ## Lines by themselves -/

theorem groupOf_none (raw : List Char) : groupOf none raw =
    (Line.ofChars raw).tokens.tokens ++ Token.of? .whitespace (endingOf raw) := by
  rw [← (ofChars_append raw).2]
  rfl

/-- A line that no block takes in has the tokens that it has by itself. -/
theorem groupOf_of_not_carried {owner : Option Nat} {raw : List Char} (h : ¬ Carried owner raw) :
    groupOf owner raw = groupOf none raw := by
  unfold groupOf
  dsimp only
  rw [if_neg (mt (any_inBlock owner raw).1 h)]
  rfl

theorem tokenize_line {raw : List Char} (hline : Text.cutLines raw = [raw]) (hnul : '\x00' ∉ raw)
    (htab : ¬ TabIndented raw) :
    lexer.tokenize (String.ofList raw) = .ok (groupOf none raw) := by
  have hnul' : '\x00' ∉ (String.ofList raw).toList := by rwa [String.toList_ofList]
  have hfault : ¬ FaultyFrom none [raw] 0 := by
    rw [faultyFrom_zero]
    exact fun h => htab h.2
  rw [lexer, tokenize_of_no_nul _ _ hnul', String.toList_ofList, hline, lineTokens_cons 1 hfault]
  exact congrArg Except.ok (List.append_nil _)

section
variable {raw body : List Char} (hbody : body ++ endingOf raw = raw)
include hbody

theorem splitEnding_of_append : splitEnding raw = (body, endingOf raw) := by
  obtain ⟨front, hsplit, hfront⟩ := splitEnding_eq raw
  rw [hsplit, List.append_cancel_right (hfront.trans hbody.symm)]

/-- A line with something on it is a literal exactly if the open block takes it in. -/
theorem groupOf_eq_literal_iff (owner : Option Nat) (hne : body ≠ []) :
    groupOf owner raw = .ofChars .literal body :: Token.of? .whitespace (endingOf raw) ↔
      Carried owner raw := by
  constructor
  · intro hgroup
    refine Classical.byContradiction fun hout => ?_
    have hkinds : KindsIn (.key :: valueKinds) (groupOf owner raw) := by
      rw [groupOf_of_not_carried hout, groupOf_none]
      exact (kindsIn_tokens _).append (.of? (by decide) _)
    have hliteral := hkinds (.ofChars .literal body) (hgroup ▸ List.mem_cons_self)
    revert hliteral
    exact of_decide_eq_false rfl
  · rintro ⟨n, rfl, hcontinues⟩
    rw [groupOf_of_carried hcontinues, splitEnding_of_append hbody, of?_of_ne_nil _ hne]
    rfl

/-- A line with nothing on it has no tokens but its ending, in a block or not. -/
theorem groupOf_of_empty (owner : Option Nat) (hempty : body = []) :
    groupOf owner raw = groupOf none raw := by
  by_cases hcarried : Carried owner raw
  · obtain ⟨n, rfl, hcontinues⟩ := hcarried
    have hline : (Line.ofChars raw).indent ++ (Line.ofChars raw).text = [] := by
      unfold Line.ofChars
      rw [splitEnding_of_append hbody, hempty]
      rfl
    have hcuts := cuts_tokens (Line.ofChars raw)
    rw [hline] at hcuts
    rw [groupOf_of_carried hcontinues, splitEnding_of_append hbody, hempty, groupOf_none,
      hcuts.eq_nil]
    rfl
  · exact groupOf_of_not_carried hcarried

end

theorem getD_groupsFrom (owner : Option Nat) {raws : List (List Char)} {j : Nat}
    (h : j < raws.length) :
    (groupsFrom owner raws).getD j [] = groupOf (ownerBefore owner raws j) (raws.getD j []) := by
  induction raws generalizing owner j with
  | nil => cases h
  | cons raw raws ih =>
    cases j with
    | zero => rfl
    | succ j => exact ih (nextOwner owner raw) (Nat.lt_of_succ_lt_succ h)

/-! ## Looking back -/

/-- The tokens of the line, read by itself and without its ending, end in a block indicator. -/
def OpensScalar (raw : List Char) : Prop :=
  ∃ tokens, lexer.tokenize (String.ofList raw) =
    .ok (tokens ++ Token.of? .whitespace (endingOf raw)) ∧ EndsInIndicator tokens

/-- Line `j` is in a block scalar: a line before it, itself in none, opens one, and every line
behind that one, up to line `j`, is blank or indented further. -/
def InScalar (raws : List (List Char)) (j : Nat) : Prop :=
  ∃ (i : Nat) (_ : i < j), ¬ InScalar raws i ∧ OpensScalar (raws.getD i []) ∧
    ∀ k, i < k → k ≤ j → Text.allBlank (raws.getD k []) = true ∨
      indentOf (raws.getD i []) < indentOf (raws.getD k [])
termination_by j

theorem opensScalar_iff {raw : List Char} (hline : Text.cutLines raw = [raw]) (hnul : '\x00' ∉ raw)
    (htab : ¬ TabIndented raw) : OpensScalar raw ↔ OpensBlock raw := by
  unfold OpensScalar OpensBlock
  rw [tokenize_line hline hnul htab, groupOf_none, ← endsInIndicator_tokens]
  constructor
  · rintro ⟨tokens, htokens, hends⟩
    rwa [List.append_cancel_right (Except.ok.inj htokens)]
  · exact fun hends => ⟨_, rfl, hends⟩

theorem inScalar_iff {s : List Char} (hnul : '\x00' ∉ s)
    (hno : ¬ ∃ j, TabFault (Text.cutLines s) j) {j : Nat} (h : j < (Text.cutLines s).length) :
    InScalar (Text.cutLines s) j ↔ InBlock (Text.cutLines s) j := by
  induction j using Nat.strongRecOn with
  | ind j ih =>
    rw [InScalar, InBlock]
    refine exists_congr fun i => exists_congr fun hi => ?_
    rw [ih i hi (by omega)]
    refine and_congr_right fun hout => and_congr_left' ?_
    have hmem : (Text.cutLines s).getD i [] ∈ Text.cutLines s := by
      rw [List.getD_eq_getElem _ _ (by omega)]
      exact List.getElem_mem _
    exact opensScalar_iff (Text.cutLines_of_mem hmem)
      (fun hc => hnul (Text.mem_of_mem_cutLines hmem hc))
      fun htab => hno ⟨i, by omega, hout, htab⟩

/-- Of a text that the lexer accepts, a line with something on it is one literal exactly if it is
in a block scalar, told by the lines in front of it: one that is in no block scalar and whose own
tokens end in a block indicator, and behind it none but blank lines and lines that are indented
further. Every other line has the tokens that it has as a text by itself. -/
theorem tokenize_literals {text : String} {tokens : List Token}
    (h : lexer.tokenize text = .ok tokens) :
    let raws := Text.cutLines text.toList
    ∃ groups, tokens = groups.flatten ∧ List.Forall₂ LineGroup raws groups ∧
      ∀ j < raws.length, ∀ body, body ++ endingOf (raws.getD j []) = raws.getD j [] →
        (body ≠ [] → (groups.getD j [] =
            .ofChars .literal body :: Token.of? .whitespace (endingOf (raws.getD j [])) ↔
          InScalar raws j)) ∧
        (¬ (body ≠ [] ∧ InScalar raws j) →
          lexer.tokenize (String.ofList (raws.getD j [])) = .ok (groups.getD j [])) := by
  obtain ⟨hnul, hno, htokens⟩ := eq_groups_of_tokenize h
  refine ⟨_, htokens, lineGroup_cutLines none _, fun j hj body hbody => ?_⟩
  have hcarried : InScalar (Text.cutLines text.toList) j ↔
      Carried (ownerBefore none (Text.cutLines text.toList) j)
        ((Text.cutLines text.toList).getD j []) :=
    (inScalar_iff hnul hno hj).trans (inBlock_iff_carried hj)
  rw [getD_groupsFrom none hj]
  refine ⟨fun hne => ?_, fun hother => ?_⟩
  · rw [groupOf_eq_literal_iff hbody _ hne, hcarried]
  · have hmem : (Text.cutLines text.toList).getD j [] ∈ Text.cutLines text.toList := by
      rw [List.getD_eq_getElem _ _ hj]
      exact List.getElem_mem _
    have hline := Text.cutLines_of_mem hmem
    have hnul' := fun hc => hnul (Text.mem_of_mem_cutLines hmem hc)
    by_cases hempty : body = []
    · rw [groupOf_of_empty hbody _ hempty]
      refine tokenize_line hline hnul' (not_tabIndented_of_not_mem fun htab => ?_)
      rw [hempty, List.nil_append] at hbody
      rw [← hbody] at htab
      rcases mem_endingOf htab with htab | htab
      · cases htab
      · cases htab
    · have hout := mt (fun hin => hcarried.2 hin) fun hin => hother ⟨hempty, hin⟩
      rw [groupOf_of_not_carried hout]
      exact tokenize_line hline hnul' fun htab =>
        hno ⟨j, hj, mt (inBlock_iff_carried hj).1 hout, htab⟩

/-- A header inside a block opens none, a line that is blank in the sense of Unicode goes on with
the block, and the line that ends it opens another, behind a comment. -/
theorem tokenize_literals_reopened :
    let text := "a: |\n  b: >\n\u2003\nc: |2- # x\n d\ne: f"
    let raws := Text.cutLines text.toList
    let tokens : List Token :=
      [⟨.key, "a"⟩, ⟨.delimiter, ":"⟩, ⟨.whitespace, " "⟩, ⟨.delimiter, "|"⟩, ⟨.whitespace, "\n"⟩,
        ⟨.literal, "  b: >"⟩, ⟨.whitespace, "\n"⟩, ⟨.literal, "\u2003"⟩, ⟨.whitespace, "\n"⟩,
        ⟨.key, "c"⟩, ⟨.delimiter, ":"⟩, ⟨.whitespace, " "⟩, ⟨.delimiter, "|2-"⟩, ⟨.whitespace, " "⟩,
        ⟨.comment, "# x"⟩, ⟨.whitespace, "\n"⟩, ⟨.literal, " d"⟩, ⟨.whitespace, "\n"⟩,
        ⟨.key, "e"⟩, ⟨.delimiter, ":"⟩, ⟨.whitespace, " "⟩, ⟨.scalar, "f"⟩]
    lexer.tokenize text = .ok tokens ∧ InScalar raws 1 ∧
      ∃ groups, tokens = groups.flatten ∧ List.Forall₂ LineGroup raws groups ∧
        groups.getD 1 [] = [⟨.literal, "  b: >"⟩, ⟨.whitespace, "\n"⟩] := by
  intro text raws tokens
  have htokens : lexer.tokenize text = .ok tokens := by decide +kernel
  have hopens : OpensScalar "a: |\n".toList := by
    have hindicator : BlockIndicator "|".toList := ⟨'|', [], [], .inl rfl, .inl rfl, .inl rfl, .inl rfl⟩
    exact ⟨_, by decide +kernel, [⟨.key, "a"⟩, ⟨.delimiter, ":"⟩, ⟨.whitespace, " "⟩], "|", [], rfl,
      hindicator, .inl rfl⟩
  have hfirst : raws.getD 0 [] = "a: |\n".toList := by decide +kernel
  have hindent : indentOf (raws.getD 0 []) < indentOf (raws.getD 1 []) := by decide +kernel
  have hin : InScalar raws 1 := by
    rw [InScalar]
    refine ⟨0, Nat.one_pos, ?_, hfirst ▸ hopens, fun k hk hk' => .inr ?_⟩
    · rw [InScalar]
      rintro ⟨i, hi, -⟩
      exact absurd hi (Nat.not_lt_zero i)
    · obtain rfl : k = 1 := by omega
      exact hindent
  have hgroup : .ofChars .literal "  b: >".toList ::
      Token.of? .whitespace (endingOf (raws.getD 1 [])) =
        [⟨.literal, "  b: >"⟩, ⟨.whitespace, "\n"⟩] := by decide +kernel
  obtain ⟨groups, hflat, hgroups, hlines⟩ := tokenize_literals htokens
  have hliteral := (hlines 1 (by decide +kernel) "  b: >".toList (by decide +kernel)).1 (by decide)
  exact ⟨htokens, hin, groups, hflat, hgroups, (hliteral.2 hin).trans hgroup⟩

end StepLog.Yaml
