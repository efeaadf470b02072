/-
  One line of key/value text.

  The ending of a line is cut off whole (`splitEnding_eq`). The tokens of what is left give
  it back (`cuts_tokens`): indentation, dashes, key and value are each cut where the next one
  starts. None of them is a literal (`kindsIn_tokens`). A line opens a block scalar exactly if
  one of its tokens is a block indicator (`opensBlock_tokens`); the other delimiters, dashes,
  colons and document markers, never are.
-/
import StepLog.Proofs.Cutting
import StepLog.Yaml.Lines

namespace StepLog.Yaml

/-! ## Line endings -/

/-- The ending of a line: a line feed, with the carriage return before it, or a carriage
return at the very end. -/
def endingOf (raw : List Char) : List Char :=
  if ['\r', '\n'] <:+ raw then ['\r', '\n']
  else if ['\n'] <:+ raw then ['\n']
  else if ['\r'] <:+ raw then ['\r']
  else []

theorem dropEndIf_append_self (x : Char) (s : List Char) : Text.dropEndIf x (s ++ [x]) = s := by
  unfold Text.dropEndIf
  rw [if_pos List.getLast?_concat, List.dropLast_concat]

theorem dropEndIf_of_not_suffix {x : Char} {s : List Char} (h : ¬ [x] <:+ s) :
    Text.dropEndIf x s = s := by
  unfold Text.dropEndIf
  refine if_neg fun e => h ?_
  obtain ⟨front, rfl⟩ := List.getLast?_eq_some_iff.1 e
  exact List.suffix_append _ _

/-- A line is cut before its ending. -/
theorem splitEnding_eq (raw : List Char) :
    ∃ body, splitEnding raw = (body, endingOf raw) ∧ body ++ endingOf raw = raw := by
  unfold splitEnding endingOf
  by_cases hn : ['\n'] <:+ raw
  · obtain ⟨front, rfl⟩ := hn
    rw [dropEndIf_append_self]
    by_cases hr : ['\r'] <:+ front
    · obtain ⟨body, rfl⟩ := hr
      rw [dropEndIf_append_self, if_pos ⟨body, by simp⟩]
      exact ⟨body, by simp, by simp⟩
    · have hrn : ¬ ['\r', '\n'] <:+ front ++ ['\n'] := by
        rintro ⟨body, e⟩
        refine hr ⟨body, ?_⟩
        exact List.append_cancel_right (by rw [← e, List.append_assoc]; rfl)
      rw [dropEndIf_of_not_suffix hr, if_neg hrn, if_pos (List.suffix_append _ _)]
      exact ⟨front, by simp, rfl⟩
  · have hrn : ¬ ['\r', '\n'] <:+ raw := fun h => hn (.trans ⟨['\r'], rfl⟩ h)
    rw [dropEndIf_of_not_suffix hn, if_neg hrn, if_neg hn]
    by_cases hr : ['\r'] <:+ raw
    · rw [if_pos hr]
      obtain ⟨body, rfl⟩ := hr
      rw [dropEndIf_append_self]
      exact ⟨body, by simp, rfl⟩
    · rw [dropEndIf_of_not_suffix hr, if_neg hr]
      exact ⟨raw, by simp, by simp⟩

/-- An ending holds nothing but carriage returns and line feeds. -/
theorem mem_endingOf {raw : List Char} {c : Char} (h : c ∈ endingOf raw) : c = '\r' ∨ c = '\n' := by
  unfold endingOf at h
  split at h
  · simpa using h
  · split at h
    · exact .inr (List.mem_singleton.1 h)
    · split at h
      · exact .inl (List.mem_singleton.1 h)
      · cases h

/-- A character that belongs to no ending stays in front of it. -/
theorem splitEnding_behind (front : List Char) {c : Char} (hreturn : c ≠ '\r') (hfeed : c ≠ '\n')
    (back : List Char) : ∃ rest,
      splitEnding (front ++ c :: back) = (front ++ c :: rest, endingOf (front ++ c :: back)) ∧
        rest ++ endingOf (front ++ c :: back) = back := by
  obtain ⟨body, hsplit, happ⟩ := splitEnding_eq (front ++ c :: back)
  have hending : c ∉ endingOf (front ++ c :: back) := by
    intro h
    rcases mem_endingOf h with rfl | rfl
    · exact hreturn rfl
    · exact hfeed rfl
  generalize endingOf (front ++ c :: back) = ending at hsplit happ hending
  rw [hsplit]
  rcases List.append_eq_append_iff.1 happ with ⟨more, -, rfl⟩ | ⟨more, rfl, hback⟩
  · exact absurd (by simp) hending
  · cases more with
    | nil =>
      obtain rfl : c :: back = ending := hback
      exact absurd List.mem_cons_self hending
    | cons d rest =>
      obtain ⟨rfl, rfl⟩ := List.cons.inj hback
      exact ⟨rest, rfl, rfl⟩

/-! ## Keys and comments -/

theorem keyFrom_append {quote before : Option Char} {text : List Char}
    {k : List Char × List Char} (h : keyFrom quote before text = some k) :
    k.1 ++ k.2 = text ∧ ∃ rest, k.2 = ':' :: rest := by
  fun_induction keyFrom quote before text generalizing k with
  | case1 => cases h
  | case2 quote before c hc =>
    obtain ⟨-, rfl⟩ := hc
    cases h
    exact ⟨rfl, [], rfl⟩
  | case3 => cases h
  | case4 before c d ds q hc ih | case5 before c d ds q hc ih | case6 before c d ds hc ih
  | case9 before c d ds h₁ h₂ h₃ ih =>
    -- the characters stepped over go in front of the key found behind them
    obtain ⟨k', hk, rfl⟩ := Option.map_eq_some_iff.1 h
    obtain ⟨e, hrest⟩ := ih hk
    refine ⟨?_, hrest⟩
    rw [← e]
    rfl
  | case7 => cases h
  | case8 before c d ds h₁ h₂ h₃ =>
    obtain ⟨rfl, rfl⟩ := h₃
    cases h
    exact ⟨rfl, _, rfl⟩

theorem key?_append {text : List Char} {k : List Char × List Char} (h : key? text = some k) :
    k.1 ++ k.2 = text ∧ ∃ rest, k.2 = ':' :: rest := by
  unfold key? at h
  split at h
  · cases h
  · split at h
    · cases h
    · exact keyFrom_append h

theorem beforeComment?_append {text : List Char} {p : List Char × List Char}
    (h : beforeComment? text = some p) :
    p.1 ++ p.2 = text ∧ ∃ rest, p.2 = ' ' :: '#' :: rest := by
  induction text generalizing p with
  | nil => cases h
  | cons c cs ih =>
    unfold beforeComment? at h
    split at h
    · next hc =>
      obtain ⟨rfl, hc⟩ := hc
      obtain ⟨rest, rfl⟩ := List.head?_eq_some_iff.1 hc
      cases h
      exact ⟨rfl, rest, rfl⟩
    · obtain ⟨p', hp, rfl⟩ := Option.map_eq_some_iff.1 h
      obtain ⟨e, hrest⟩ := ih hp
      refine ⟨?_, hrest⟩
      rw [← e]
      rfl

theorem trimEnd_append (s : List Char) : Text.trimEnd s ++ s.drop (Text.trimEnd s).length = s := by
  apply (List.prefix_iff_eq_append).1
  unfold Text.trimEnd Text.dropEndWhile
  rw [← List.reverse_suffix, List.reverse_reverse]
  exact List.dropWhile_suffix _

/-! ## The tokens cut the line -/

theorem cuts_valueTokens (text : List Char) : Cuts (valueTokens text).tokens text := by
  unfold valueTokens
  split
  · exact .of? _ text
  · split
    · split
      · exact .of? _ text
      · exact .of? _ text
    · next front rest hp =>
      dsimp only
      split
      · obtain ⟨e, -⟩ := beforeComment?_append hp
        have hcut : Text.trimEnd front ++ (front.drop (Text.trimEnd front).length ++ rest.take 1) ++
            rest.drop 1 = text := by
          rw [← List.append_assoc, trimEnd_append, List.append_assoc, List.take_append_drop]
          exact e
        rw [← hcut]
        exact ((Cuts.of? _ _).append (.of? _ _)).append (.of? _ _)
      · exact .of? _ text

theorem cuts_entryTokens (text : List Char) : Cuts (entryTokens text).tokens text := by
  unfold entryTokens
  split
  · exact .of? _ text
  · split
    · exact cuts_valueTokens text
    · next k rest hk =>
      obtain ⟨e, -⟩ := key?_append hk
      have hcut : k ++ rest.take 1 ++ (rest.drop 1).takeWhile (· = ' ') ++
          (rest.drop 1).dropWhile (· = ' ') = text := by
        rw [List.append_assoc, List.takeWhile_append_dropWhile, List.append_assoc,
          List.take_append_drop]
        exact e
      rw [← hcut]
      exact (((Cuts.of? _ _).append (.of? _ _)).append (.of? _ _)).append (cuts_valueTokens _)

theorem cuts_dashes (text : List Char) :
    ∃ front, Cuts (dashes text).1 front ∧ front ++ (dashes text).2 = text := by
  fun_induction dashes text with
  | case1 => exact ⟨[], .nil, rfl⟩
  | case2 c cs hc d ih =>
    obtain ⟨front, hcut, e⟩ := ih
    refine ⟨[c] ++ cs.takeWhile (· = ' ') ++ front,
      ((Cuts.of? _ _).append (.of? _ _)).append hcut, ?_⟩
    rw [List.append_assoc, e, List.append_assoc, List.takeWhile_append_dropWhile]
    rfl
  | case3 c cs hc => exact ⟨[], .nil, rfl⟩

/-- The tokens of a line cut the line without its ending. -/
theorem cuts_tokens (line : Line) : Cuts line.tokens.tokens (line.indent ++ line.text) := by
  unfold Line.tokens
  dsimp only
  split
  · exact (Cuts.of? _ _).append (.of? _ _)
  · obtain ⟨front, hcut, e⟩ := cuts_dashes line.text
    have hline := ((Cuts.of? .whitespace line.indent).append hcut).append
      (cuts_entryTokens (dashes line.text).2)
    rwa [List.append_assoc line.indent, e] at hline

/-! ## Kinds of tokens -/

/-- The tokens are of these kinds. -/
def KindsIn (kinds : List TokenKind) (tokens : List Token) : Prop := ∀ t ∈ tokens, t.kind ∈ kinds

namespace KindsIn

variable {kinds kinds' : List TokenKind} {xs ys : List Token}

theorem nil : KindsIn kinds [] := nofun

theorem append (h : KindsIn kinds xs) (h' : KindsIn kinds ys) : KindsIn kinds (xs ++ ys) :=
  List.forall_mem_append.2 ⟨h, h'⟩

theorem mono (h : KindsIn kinds xs) (hsub : kinds ⊆ kinds') : KindsIn kinds' xs :=
  fun t ht => hsub (h t ht)

theorem of? {kind : TokenKind} (h : kind ∈ kinds) (s : List Char) :
    KindsIn kinds (Token.of? kind s) := by
  intro t ht
  obtain ⟨rfl, -⟩ := ne_nil_of_mem_of? ht
  exact h

end KindsIn

/-- The kinds of tokens in a value. -/
def valueKinds : List TokenKind := [.comment, .delimiter, .whitespace, .scalar]

theorem kindsIn_valueTokens (text : List Char) : KindsIn valueKinds (valueTokens text).tokens := by
  unfold valueTokens
  split
  · exact .of? (by decide) _
  · split
    · split
      · exact .of? (by decide) _
      · exact .of? (by decide) _
    · dsimp only
      split
      · exact ((KindsIn.of? (by decide) _).append (.of? (by decide) _)).append (.of? (by decide) _)
      · exact .of? (by decide) _

theorem kindsIn_entryTokens (text : List Char) :
    KindsIn (.key :: valueKinds) (entryTokens text).tokens := by
  have hvalue : ∀ text, KindsIn (.key :: valueKinds) (valueTokens text).tokens :=
    fun text => (kindsIn_valueTokens text).mono (List.subset_cons_self _ _)
  unfold entryTokens
  split
  · exact .of? (by decide) _
  · split
    · exact hvalue text
    · exact (((KindsIn.of? (by decide) _).append (.of? (by decide) _)).append
        (.of? (by decide) _)).append (hvalue _)

theorem kindsIn_dashes (text : List Char) : KindsIn (.key :: valueKinds) (dashes text).1 := by
  fun_induction dashes text with
  | case1 => exact .nil
  | case2 c cs hc d ih => exact ((KindsIn.of? (by decide) _).append (.of? (by decide) _)).append ih
  | case3 c cs hc => exact .nil

/-- Outside a block scalar no token is a literal. -/
theorem kindsIn_tokens (line : Line) : KindsIn (.key :: valueKinds) line.tokens.tokens := by
  unfold Line.tokens
  dsimp only
  split
  · exact (KindsIn.of? (by decide) _).append (.of? (by decide) _)
  · exact ((KindsIn.of? (by decide) _).append (kindsIn_dashes _)).append (kindsIn_entryTokens _)

/-! ## Block indicators -/

/-- A block indicator is among the tokens. -/
def hasIndicator (tokens : List Token) : Bool :=
  tokens.any fun t => t.kind = .delimiter && isBlockIndicator t.text.toList

@[simp] theorem hasIndicator_append (xs ys : List Token) :
    hasIndicator (xs ++ ys) = (hasIndicator xs || hasIndicator ys) := List.any_append

@[simp] theorem hasIndicator_of? (kind : TokenKind) (s : List Char) :
    hasIndicator (Token.of? kind s) = (kind = .delimiter && isBlockIndicator s) := by
  unfold Token.of? hasIndicator
  split
  · next h =>
    rw [List.isEmpty_iff.1 h]
    simp [isBlockIndicator]
  · simp [Token.ofChars]

theorem opensBlock_valueTokens (text : List Char) :
    (valueTokens text).opensBlock = hasIndicator (valueTokens text).tokens := by
  unfold valueTokens
  split
  · simp
  · split
    · split
      · next h => simp [h]
      · simp
    · dsimp only
      split
      · next h => simp [h]
      · simp

theorem opensBlock_entryTokens (text : List Char) :
    (entryTokens text).opensBlock = hasIndicator (entryTokens text).tokens := by
  unfold entryTokens
  split
  · simp
  · split
    · exact opensBlock_valueTokens text
    · next k rest hk =>
      obtain ⟨-, after, rfl⟩ := key?_append hk
      have hcolon : isBlockIndicator [':'] = false := by decide
      simp [opensBlock_valueTokens, hcolon]

theorem hasIndicator_dashes (text : List Char) : hasIndicator (dashes text).1 = false := by
  fun_induction dashes text with
  | case1 => rfl
  | case2 c cs hc d ih =>
    have hdash : isBlockIndicator ['-'] = false := by decide
    rw [hc.1, hasIndicator_append, hasIndicator_append, ih]
    simp [hdash]
  | case3 c cs hc => rfl

/-- A line opens a block scalar exactly if a block indicator is among its tokens. -/
theorem opensBlock_tokens (line : Line) :
    line.tokens.opensBlock = hasIndicator line.tokens.tokens := by
  unfold Line.tokens
  dsimp only
  split
  · next h =>
    have hmarker : isBlockIndicator line.text = false := by
      rcases h with h | h
      · rw [h]
        decide
      · rw [h]
        decide
    simp [hmarker]
  · simp [opensBlock_entryTokens, hasIndicator_dashes]

end StepLog.Yaml
