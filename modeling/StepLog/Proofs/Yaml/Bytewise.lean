/-
  The key/value lexer, byte by byte.

  Here the lexer is written a second time, with offsets: a loop over the bytes of a line looks
  for the colon behind a key, and the line is cut at that colon, at a comment and at counts of
  bytes. Every cut is refused inside a character, and every count below zero.

  None of this ever happens. Behind a backslash the loop goes on by two bytes, so it may come to
  the middle of a character, but what it looks for are ASCII characters, and these it meets only
  where they stand (`findKeyEnd_eq`). The line is then cut as the lexer cuts it
  (`valueTokens_eq`, `entryTokens_eq`, `dashes_eq`), and the walk gives the tokens of the lexer
  (`walk_eq`).
-/
import StepLog.Proofs.Shell.Bytewise
import StepLog.Proofs.Yaml.Line

namespace StepLog

namespace Yaml.Bytewise

open Text

/-! ## The walk -/

/-- The offset of the colon behind a key, looked for from an offset on; `quote` is open. -/
def findKeyEnd (text : List Char) (quote : Option Char) (pos : Nat) : Option Nat :=
  match _ : byteAt text pos with
  | none => none
  | some b =>
    match quote with
    | some q =>
      if q = '"' ∧ b = '\\' then findKeyEnd text quote (pos + 2)
      else findKeyEnd text (if b = q then none else quote) (pos + 1)
    | none =>
      if b = '"' ∨ b = '\'' then findKeyEnd text (some b) (pos + 1)
      else if b = '#' ∧ 0 < pos ∧ byteAt text (pos - 1) = some ' ' then none
      else if b = ':' ∧ (byteAt text (pos + 1)).all (· = ' ') then some pos
      else findKeyEnd text none (pos + 1)
termination_by byteLength text - pos
decreasing_by
  all_goals
    have := lt_of_byteAt ‹_›
    omega

/-- The offset of the colon behind the key at the front of a text. -/
def keyEnd? (text : List Char) : Option Nat :=
  match text.head? with
  | none => none
  | some c =>
    if c = '\x7b' ∨ c = '[' ∨ c = '|' ∨ c = '>' then none else findKeyEnd text none 0

/-- The spaces at the front of a text, and what is behind them. -/
def gap (text : List Char) : Walk (List Char × List Char) := do
  let rest := text.dropWhile (· = ' ')
  let width ← minus (byteLength text) (byteLength rest)
  let parts ← cut text width
  return (parts.1, rest)

/-- The offset of the space in front of a comment. -/
def commentGap? (text : List Char) : Option Nat :=
  (beforeComment? text).map fun p => byteLength p.1

def valueTokens (text : List Char) : Walk LineTokens :=
  if text.head? = some '#' then .ok ⟨Token.of? .comment text, false⟩
  else match commentGap? text with
    | none =>
      if isBlockIndicator text then .ok ⟨Token.of? .delimiter text, true⟩
      else .ok ⟨Token.of? .scalar text, false⟩
    | some pos => do
      let front ← cut text pos
      let indicator := trimEnd front.1
      if isBlockIndicator indicator then do
        let space ← slice text (byteLength indicator) (pos + 1)
        let comment ← cut text (pos + 1)
        return ⟨Token.of? .delimiter indicator ++ Token.of? .whitespace space ++
          Token.of? .comment comment.2, true⟩
      else return ⟨Token.of? .scalar text, false⟩

def entryTokens (text : List Char) : Walk LineTokens :=
  if text.head? = some '#' then .ok ⟨Token.of? .comment text, false⟩
  else match keyEnd? text with
    | none => valueTokens text
    | some colon => do
      let key ← cut text colon
      let delimiter ← slice text colon (colon + 1)
      let behind ← cut text (colon + 1)
      let space ← gap behind.2
      let value ← valueTokens space.2
      return ⟨Token.of? .key key.1 ++ Token.of? .delimiter delimiter ++
        Token.of? .whitespace space.1 ++ value.tokens, value.opensBlock⟩

def dashes (text : List Char) : Walk (List Token × List Char) :=
  if text = ['-'] ∨ text.take 2 = ['-', ' '] then do
    let dash ← cut text 1
    let space ← gap dash.2
    if _ : space.2.length < text.length then do
      let behind ← dashes space.2
      return (Token.of? .delimiter dash.1 ++ Token.of? .whitespace space.1 ++ behind.1, behind.2)
    else .error .stuck
  else .ok ([], text)
termination_by text.length

/-- The tokens of a line outside any block scalar; `indent` bytes of it are indentation. -/
def tokensOf (line : List Char) (indent : Nat) : Walk LineTokens := do
  let parts ← cut line indent
  if parts.2 = "---".toList ∨ parts.2 = "...".toList then
    return ⟨Token.of? .whitespace parts.1 ++ Token.of? .delimiter parts.2, false⟩
  else do
    let d ← dashes parts.2
    let e ← entryTokens d.2
    return ⟨Token.of? .whitespace parts.1 ++ d.1 ++ e.tokens, e.opensBlock⟩

/-- The tokens of lines from number `number` on. -/
def lineTokens (number : Nat) (owner : Option Nat) :
    List (List Char) → Walk (Except LexFault (List Token))
  | [] => .ok (.ok [])
  | raw :: raws => do
    let line := dropEndIf '\r' (dropEndIf '\n' raw)
    let parts ← cut raw (byteLength line)
    let ending := Token.of? .whitespace parts.2
    let indent ← minus (byteLength line) (byteLength (line.dropWhile (· = ' ')))
    if owner.any fun n => allBlank line || n < indent then do
      let behind ← lineTokens (number + 1) owner raws
      return behind.map (Token.of? .literal line ++ ending ++ ·)
    else do
      let text ← cut line indent
      if text.2.head? = some '\t' then return .error ⟨"yaml", .tabIndent number⟩
      else do
        let here ← tokensOf line indent
        let owner' := if here.opensBlock then some indent else none
        let behind ← lineTokens (number + 1) owner' raws
        return behind.map (here.tokens ++ ending ++ ·)

/-- The tokens of a text, or its fault. -/
def walk (text : String) : Walk (Except LexFault (List Token)) :=
  match beforeNul? text.toList with
  | some front => .ok (.error ⟨"yaml", .nul (byteLength front)⟩)
  | none => lineTokens 1 none (cutLines text.toList)

/-! ## Keys -/

section

variable {text front : List Char}

theorem findKeyEnd_past {quote : Option Char} {pos : Nat} (h : byteLength text ≤ pos) :
    findKeyEnd text quote pos = none := by
  rw [findKeyEnd]
  split
  · rfl
  · next hb =>
    have := lt_of_byteAt hb
    omega

theorem findKeyEnd_quoted {q b : Char} {pos : Nat} (hb : byteAt text pos = some b) :
    findKeyEnd text (some q) pos =
      if q = '"' ∧ b = '\\' then findKeyEnd text (some q) (pos + 2)
      else findKeyEnd text (if b = q then none else some q) (pos + 1) := by
  rw [findKeyEnd]
  split <;> simp_all

theorem findKeyEnd_plain {b : Char} {pos : Nat} (hb : byteAt text pos = some b) :
    findKeyEnd text none pos =
      if b = '"' ∨ b = '\'' then findKeyEnd text (some b) (pos + 1)
      else if b = '#' ∧ 0 < pos ∧ byteAt text (pos - 1) = some ' ' then none
      else if b = ':' ∧ (byteAt text (pos + 1)).all (· = ' ') then some pos
      else findKeyEnd text none (pos + 1) := by
  rw [findKeyEnd]
  split <;> simp_all

/-- The loop goes over a byte that is not of ASCII. -/
theorem findKeyEnd_wide {quote : Option Char} (hquote : ∀ q ∈ quote, q.toNat < 128) {b : Char}
    {pos : Nat} (hb : byteAt text pos = some b) (hwide : 128 ≤ b.toNat) :
    findKeyEnd text quote pos = findKeyEnd text quote (pos + 1) := by
  have hne : ∀ x : Char, x.toNat < 128 → b ≠ x := by
    rintro x hx rfl
    omega
  cases quote with
  | none =>
    rw [findKeyEnd_plain hb, if_neg (not_or.2 ⟨hne _ (by decide), hne _ (by decide)⟩),
      if_neg fun h => hne _ (by decide) h.1, if_neg fun h => hne _ (by decide) h.1]
  | some q =>
    rw [findKeyEnd_quoted hb, if_neg fun h => hne _ (by decide) h.2,
      if_neg (hne q (hquote q rfl))]

/-- Inside quotes the loop goes over the bytes of a character. -/
theorem findKeyEnd_quoted_char {q c : Char} {cs : List Char} (hq : q.toNat < 128)
    (e : text = front ++ c :: cs) :
    findKeyEnd text (some q) (byteLength front) =
      if q = '"' ∧ c = '\\' then findKeyEnd text (some q) (byteLength (front ++ [c]) + 1)
      else findKeyEnd text (if c = q then none else some q) (byteLength (front ++ [c])) := by
  obtain ⟨b, hb, hlike⟩ := byteAt_front e
  have hbackslash : b = '\\' ↔ c = '\\' := hlike.eq_iff (by decide)
  rw [findKeyEnd_quoted hb]
  simp only [hlike.eq_iff hq, hbackslash]
  split
  · next hc => rw [byteLength_concat_ascii front (show c.toNat < 128 by rw [hc.2]; decide)]
  · split
    · next hc =>
      subst hc
      rw [byteLength_concat_ascii front hq]
    · exact walk_char e fun pos b hb hwide => findKeyEnd_wide (by rintro _ ⟨rfl⟩; exact hq) hb hwide

/-- A byte at the front of a text passes a test for ASCII characters with the character. -/
theorem all_byteAt {test : Char → Bool} (htest : AsciiOnly test) {s : List Char}
    (e : text = front ++ s) : (byteAt text (byteLength front)).all test = s.head?.all test := by
  cases s with
  | nil =>
    rw [List.append_nil] at e
    rw [← e, byteAt_end]
    rfl
  | cons c cs =>
    obtain ⟨b, hb, hlike⟩ := byteAt_front e
    rw [hb]
    exact hlike.test_eq htest

/-- Outside quotes the loop goes over the bytes of a character that it does not look for. -/
theorem findKeyEnd_plain_char {c : Char} {cs : List Char} (e : text = front ++ c :: cs) :
    findKeyEnd text none (byteLength front) =
      if c = '"' ∨ c = '\'' then findKeyEnd text (some c) (byteLength (front ++ [c]))
      else if c = '#' ∧ front.getLast? = some ' ' then none
      else if c = ':' ∧ cs.head?.all (· = ' ') then some (byteLength front)
      else findKeyEnd text none (byteLength (front ++ [c])) := by
  have hskip : findKeyEnd text none (byteLength front + 1) =
      findKeyEnd text none (byteLength (front ++ [c])) :=
    walk_char e fun pos b hb hwide => findKeyEnd_wide (by simp) hb hwide
  obtain ⟨b, hb, hlike⟩ := byteAt_front e
  have hquote : (b = '"' ∨ b = '\'') ↔ (c = '"' ∨ c = '\'') :=
    or_congr (hlike.eq_iff (by decide)) (hlike.eq_iff (by decide))
  have hhash : b = '#' ↔ c = '#' := hlike.eq_iff (by decide)
  have hcolon : b = ':' ∧ (byteAt text (byteLength front + 1)).all (· = ' ') ↔
      c = ':' ∧ cs.head?.all (· = ' ') := by
    rw [hlike.eq_iff (by decide)]
    refine and_congr_right fun hc => ?_
    rw [← byteLength_concat_ascii front (show c.toNat < 128 by rw [hc]; decide),
      all_byteAt (.eq_char (by decide)) (by rw [e, List.append_cons])]
  rw [findKeyEnd_plain hb]
  simp only [hquote, hhash, byteAt_before (x := ' ') (by decide) e, hcolon, hskip]
  split
  · next hc =>
    have hascii : c.toNat < 128 := by
      rcases hc with rfl | rfl <;> decide
    obtain rfl : b = c := (hlike.eq_iff hascii).2 rfl
    rw [byteLength_concat_ascii front hascii]
  · rfl

/-- The loop comes to the colon behind the key. -/
theorem findKeyEnd_eq {quote : Option Char} (hquote : ∀ q ∈ quote, q.toNat < 128)
    {s : List Char} (e : text = front ++ s) :
    findKeyEnd text quote (byteLength front) =
      (keyFrom quote front.getLast? s).map fun k => byteLength (front ++ k.1) := by
  generalize hbefore : front.getLast? = before
  fun_induction keyFrom quote before s generalizing front with
  | case1 quote before =>
    rw [List.append_nil] at e
    rw [← e, findKeyEnd_past (Nat.le_refl _)]
    rfl
  | case2 quote before c hc =>
    obtain ⟨rfl, rfl⟩ := hc
    rw [findKeyEnd_plain_char e, if_neg (by decide), if_neg (by simp), if_pos ⟨rfl, rfl⟩]
    simp
  | case3 quote before c hc =>
    cases quote with
    | some q =>
      rw [findKeyEnd_quoted_char (hquote q rfl) e, ← e, findKeyEnd_past (Nat.le_succ _),
        findKeyEnd_past (Nat.le_refl _), ite_self]
      rfl
    | none =>
      have hcolon : ¬ (c = ':' ∧ ([].head? : Option Char).all (· = ' ')) := fun h => hc ⟨rfl, h.1⟩
      rw [findKeyEnd_plain_char e, ← e, findKeyEnd_past (Nat.le_refl _),
        findKeyEnd_past (Nat.le_refl _), if_neg hcolon, ite_self, ite_self]
      rfl
  | case4 before c d ds q hc ih =>
    obtain ⟨rfl, rfl⟩ := hc
    have e' : text = front ++ ['\\'] ++ d :: ds := by rw [e, List.append_cons]
    have hchar : findKeyEnd text (some '"') (byteLength (front ++ ['\\']) + 1) =
        findKeyEnd text (some '"') (byteLength (front ++ ['\\'] ++ [d])) :=
      walk_char e' fun pos b hb hwide => findKeyEnd_wide hquote hb hwide
    rw [findKeyEnd_quoted_char (hquote _ rfl) e, if_pos ⟨rfl, rfl⟩, hchar,
      ih hquote (by rw [e', List.append_cons]) List.getLast?_concat, Option.map_map]
    simp only [Function.comp_def, List.append_assoc, List.cons_append, List.nil_append]
  | case5 before c d ds q hc ih =>
    have hquote' : ∀ q' ∈ (if c = q then none else some q), q'.toNat < 128 := by
      intro q' hq'
      split at hq'
      · cases hq'
      · exact hquote q' hq'
    rw [findKeyEnd_quoted_char (hquote _ rfl) e, if_neg hc,
      ih hquote' (by rw [e, List.append_cons]) List.getLast?_concat, Option.map_map]
    simp only [Function.comp_def, List.append_assoc, List.cons_append, List.nil_append]
  | case6 before c d ds hc ih =>
    have hquote' : ∀ q ∈ some c, q.toNat < 128 := by
      rintro _ ⟨rfl⟩
      rcases hc with rfl | rfl <;> decide
    rw [findKeyEnd_plain_char e, if_pos hc,
      ih hquote' (by rw [e, List.append_cons]) List.getLast?_concat, Option.map_map]
    simp only [Function.comp_def, List.append_assoc, List.cons_append, List.nil_append]
  | case7 before c d ds h₁ h₂ =>
    rw [findKeyEnd_plain_char e, if_neg h₁, hbefore, if_pos h₂]
    rfl
  | case8 before c d ds h₁ h₂ h₃ =>
    rw [findKeyEnd_plain_char e, if_neg h₁, hbefore, if_neg h₂,
      if_pos ⟨h₃.1, decide_eq_true h₃.2⟩, Option.map_some, List.append_nil]
  | case9 before c d ds h₁ h₂ h₃ ih =>
    rw [findKeyEnd_plain_char e, if_neg h₁, hbefore, if_neg h₂,
      if_neg fun h => h₃ ⟨h.1, of_decide_eq_true h.2⟩,
      ih hquote (by rw [e, List.append_cons]) List.getLast?_concat, Option.map_map]
    simp only [Function.comp_def, List.append_assoc, List.cons_append, List.nil_append]

theorem keyEnd?_eq (text : List Char) : keyEnd? text = (key? text).map fun k => byteLength k.1 := by
  unfold keyEnd? key?
  cases text with
  | nil => rfl
  | cons c cs =>
    dsimp only [List.head?_cons]
    split
    · rfl
    · exact findKeyEnd_eq (by simp) (show c :: cs = [] ++ c :: cs from rfl)

end

/-! ## Lines -/

/-- The spaces at the front are counted by the length of what is behind them. -/
theorem minus_dropWhile (s : List Char) :
    minus (byteLength s) (byteLength (s.dropWhile (· = ' '))) =
      .ok (byteLength (s.takeWhile (· = ' '))) := by
  have hlen : byteLength s = byteLength (s.takeWhile (· = ' ')) +
      byteLength (s.dropWhile (· = ' ')) := by
    rw [← byteLength_append, List.takeWhile_append_dropWhile]
  rw [minus, if_pos (by omega), hlen, Nat.add_sub_cancel]

theorem gap_eq (text : List Char) :
    gap text = .ok (text.takeWhile (· = ' '), text.dropWhile (· = ' ')) := by
  have hcut := cut_append (text.takeWhile (· = ' ')) (text.dropWhile (· = ' '))
  rw [List.takeWhile_append_dropWhile] at hcut
  rw [gap, minus_dropWhile, ok_bind, hcut]
  rfl

theorem valueTokens_eq (text : List Char) : valueTokens text = .ok (Yaml.valueTokens text) := by
  unfold valueTokens Yaml.valueTokens commentGap?
  split
  · rfl
  · cases h : beforeComment? text with
    | none =>
      dsimp only [Option.map_none]
      split <;> rfl
    | some p =>
      obtain ⟨e, rest, hrest⟩ := beforeComment?_append h
      have htrim := trimEnd_append p.1
      have hcut : cut text (byteLength p.1) = .ok (p.1, p.2) := by rw [← e, cut_append]
      have hcut' : cut text (byteLength p.1 + 1) = .ok (p.1 ++ [' '], '#' :: rest) := by
        rw [← e, hrest, cut_behind _ (by decide)]
      have hslice : slice text (byteLength (trimEnd p.1)) (byteLength p.1 + 1) =
          .ok (p.1.drop (trimEnd p.1).length ++ [' ']) := by
        have hend : p.1 ++ [' '] =
            trimEnd p.1 ++ (p.1.drop (trimEnd p.1).length ++ [' ']) := by
          rw [← List.append_assoc, htrim]
        rw [← byteLength_concat_ascii p.1 (show ' '.toNat < 128 by decide), hend]
        exact slice_append (by rw [← e, hrest, List.append_cons, hend, List.append_assoc])
      dsimp only [Option.map_some]
      rw [hcut, ok_bind, hrest]
      dsimp only
      split
      · rw [hslice, ok_bind, hcut']
        rfl
      · rfl

theorem entryTokens_eq (text : List Char) : entryTokens text = .ok (Yaml.entryTokens text) := by
  unfold entryTokens Yaml.entryTokens
  rw [keyEnd?_eq]
  split
  · rfl
  · cases h : key? text with
    | none => exact valueTokens_eq text
    | some k =>
      obtain ⟨e, rest, hrest⟩ := key?_append h
      have hcut : cut text (byteLength k.1) = .ok (k.1, k.2) := by rw [← e, cut_append]
      have hcut' : cut text (byteLength k.1 + 1) = .ok (k.1 ++ [':'], rest) := by
        rw [← e, hrest, cut_behind _ (by decide)]
      have hslice : slice text (byteLength k.1) (byteLength k.1 + 1) = .ok [':'] := by
        rw [← byteLength_concat_ascii k.1 (show ':'.toNat < 128 by decide)]
        exact slice_append (by rw [← e, hrest]; rfl)
      dsimp only [Option.map_some]
      rw [hcut, ok_bind, hslice, ok_bind, hcut', ok_bind, gap_eq, ok_bind, valueTokens_eq,
        ok_bind, hrest]
      rfl

theorem dashes_eq (text : List Char) : dashes text = .ok (Yaml.dashes text) := by
  fun_induction Yaml.dashes text with
  | case1 =>
    rw [dashes, if_neg (by decide)]
  | case2 c cs h d ih =>
    obtain ⟨rfl, hcs⟩ := h
    have hdash : '-' :: cs = ['-'] ∨ ('-' :: cs).take 2 = ['-', ' '] := by
      rcases hcs with rfl | hcs
      · exact .inl rfl
      · obtain ⟨ds, rfl⟩ := List.head?_eq_some_iff.1 hcs
        exact .inr rfl
    have hcut : cut ('-' :: cs) 1 = .ok (['-'], cs) := cut_behind [] (by decide) cs
    have hshort : (cs.dropWhile (· = ' ')).length < ('-' :: cs).length :=
      Nat.lt_succ_of_le (List.dropWhile_suffix _).length_le
    rw [dashes, if_pos hdash, hcut, ok_bind, gap_eq, ok_bind, dif_pos hshort, ih]
    rfl
  | case3 c cs h =>
    have hdash : ¬ (c :: cs = ['-'] ∨ (c :: cs).take 2 = ['-', ' ']) := by
      rintro (e | e)
      · cases e
        exact h ⟨rfl, .inl rfl⟩
      · cases cs with
        | nil => cases e
        | cons d ds =>
          cases e
          exact h ⟨rfl, .inr rfl⟩
    rw [dashes, if_neg hdash]

theorem tokensOf_eq (line : Line) :
    tokensOf (line.indent ++ line.text) (byteLength line.indent) = .ok line.tokens := by
  unfold tokensOf Line.tokens
  rw [cut_append, ok_bind]
  dsimp only
  split
  · rfl
  · rw [dashes_eq, ok_bind, entryTokens_eq]
    rfl

/-- Indentation has as many bytes as spaces. -/
theorem byteLength_spaces (s : List Char) :
    byteLength (s.takeWhile (· = ' ')) = (s.takeWhile (· = ' ')).length := by
  refine byteLength_eq_length fun c hc => ?_
  have hspace := List.all_eq_true.1 List.all_takeWhile c hc
  rw [of_decide_eq_true hspace]
  decide

theorem lineTokens_eq (number : Nat) (owner : Option Nat) (raws : List (List Char)) :
    lineTokens number owner raws = .ok (Yaml.lineTokens number owner raws) := by
  induction raws generalizing number owner with
  | nil => rfl
  | cons raw raws ih =>
    obtain ⟨body, hsplit, hraw⟩ := splitEnding_eq raw
    have hbody : dropEndIf '\r' (dropEndIf '\n' raw) = body := congrArg Prod.fst hsplit
    have hline : Line.ofChars raw =
        ⟨body.takeWhile (· = ' '), body.dropWhile (· = ' '), endingOf raw⟩ := by
      rw [Line.ofChars, hsplit]
    have hcut : cut raw (byteLength body) = .ok (body, endingOf raw) := by
      rw [← cut_append, hraw]
    have hparts : body.takeWhile (· = ' ') ++ body.dropWhile (· = ' ') = body :=
      List.takeWhile_append_dropWhile
    have htext := cut_append (body.takeWhile (· = ' ')) (body.dropWhile (· = ' '))
    have htokens := tokensOf_eq (Line.ofChars raw)
    rw [hline] at htokens
    dsimp only at htokens
    rw [hparts] at htext htokens
    have hblock : (owner.any fun n => allBlank body ||
        decide (n < byteLength (body.takeWhile (· = ' ')))) =
        owner.any (Line.ofChars raw).inBlock := by
      rw [hline]
      unfold Line.inBlock
      dsimp only
      rw [hparts, byteLength_spaces]
    rw [lineTokens, Yaml.lineTokens, hbody, hcut, ok_bind, minus_dropWhile, ok_bind, ← hblock,
      hline]
    dsimp only
    split
    · rw [ih, hparts]
      rfl
    · rw [htext, ok_bind]
      split
      · rfl
      · rw [htokens, ok_bind, ih, byteLength_spaces]
        rfl

theorem walk_eq (text : String) : walk text = .ok (Yaml.lexer.tokenize text) := by
  unfold walk Yaml.lexer Lexer.rejectingNul
  dsimp only
  cases beforeNul? text.toList with
  | none => exact lineTokens_eq 1 none (cutLines text.toList)
  | some front => rfl

end Yaml.Bytewise

/-- Byte by byte, both lexers come to their tokens on every text: no cut falls inside a character
or behind the end, no bracket is closed that is not open, and every step moves on inside the
text. -/
theorem tokenize_bytewise (text : String) :
    Shell.Bytewise.walk text = .ok (Shell.lexer.tokenize text) ∧
      Yaml.Bytewise.walk text = .ok (Yaml.lexer.tokenize text) :=
  ⟨Shell.Bytewise.walk_eq text, Yaml.Bytewise.walk_eq text⟩

end StepLog
