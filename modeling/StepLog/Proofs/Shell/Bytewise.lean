/-
  The shell lexer, byte by byte.

  Here the lexer is written a second time, as a walk over the bytes of the text that holds
  offsets: it looks at one byte after the other, and cuts the text at the offsets it has come
  to. Every cut is refused inside a character, every closing bracket without an open one, and
  every step that does not move on or passes the end.

  None of this ever happens. Each function of the walk comes to the end of what its counterpart
  on characters takes (`skip_eq`, `closingEnd_eq`, `quotedEnd_eq`, `parts_eq`), so the walk ends
  well and gives the tokens of the lexer (`walk_eq`).
-/
import StepLog.Proofs.Shell.Keywords
import StepLog.Proofs.Text.Offsets

namespace StepLog.Shell.Bytewise

open Text

/-! ## The walk -/

section

variable (text : List Char)

/-- Bytes of the character at an offset; none at the end. -/
def charLength (pos : Nat) : Walk Nat := do
  let parts ← cut text pos
  return byteLength (parts.2.take 1)

/-- Bytes of what a backslash in front of the offset protects. -/
def shieldedLength (pos : Nat) : Walk Nat :=
  if pos < byteLength text then charLength text pos else .ok 0

/-- The end of the bytes that pass a test. -/
def skip (test : Char → Bool) (pos : Nat) : Nat :=
  match _ : byteAt text pos with
  | none => pos
  | some b => if test b then skip test (pos + 1) else pos
termination_by byteLength text - pos
decreasing_by
  have := lt_of_byteAt ‹_›
  omega

def commentEnd (start : Nat) : Walk Nat := do
  let parts ← cut text start
  return start + byteLength (parts.2.takeWhile (· ≠ '\n'))

def operatorEnd (start : Nat) : Nat :=
  match byteAt text start, byteAt text (start + 1) with
  | some b, some b' => if twoCharOperators.contains (b, b') then start + 2 else start + 1
  | _, _ => start + 1

/-- The end of a string, from behind its opening quote on. -/
def quotedEnd (quote : Char) (pos : Nat) : Walk Nat :=
  match _ : byteAt text pos with
  | none => .ok pos
  | some b =>
    if b = quote then .ok (pos + 1)
    else if b = '\\' ∧ quote = '"' then do
      let shielded ← shieldedLength text (pos + 1)
      quotedEnd quote (pos + 1 + shielded)
    else quotedEnd quote (pos + 1)
termination_by byteLength text - pos
decreasing_by
  all_goals
    have := lt_of_byteAt ‹_›
    omega

/-- The end of a bracket; `depth` brackets are open. -/
def closingEnd (opener closer : Char) (depth pos : Nat) : Walk Nat :=
  match _ : byteAt text pos with
  | none => .ok pos
  | some b =>
    if b = opener then closingEnd opener closer (depth + 1) (pos + 1)
    else if b = closer then do
      let left ← minus depth 1
      if left = 0 then return pos + 1 else closingEnd opener closer left (pos + 1)
    else closingEnd opener closer depth (pos + 1)
termination_by byteLength text - pos
decreasing_by
  all_goals
    have := lt_of_byteAt ‹_›
    omega

/-- The end of a parameter, from its `$` on. -/
def parameterEnd (start : Nat) : Walk Nat :=
  match byteAt text (start + 1) with
  | none => .ok (start + 1)
  | some b =>
    if b = '\x7b' then closingEnd text '\x7b' '\x7d' 0 (start + 1)
    else if b = '(' then closingEnd text '(' ')' 0 (start + 1)
    else if isNameStart b then .ok (skip text isNameChar (start + 1))
    else if b.isDigit || isSpecialParameter b then .ok (start + 2)
    else .ok (start + 1)

/-- The end of a part in quotes, or of a parameter, at whose first byte the walk stands. -/
def partEnd (b : Char) (start : Nat) : Walk Nat :=
  if b = '$' then parameterEnd text start else quotedEnd text b (start + 1)

/-- The plain part between two offsets, unless it is empty. -/
def plainPart (start stop : Nat) : Walk (List Segment) :=
  if start < stop then do
    let part ← slice text start stop
    return [.plain part]
  else .ok []

/-- The parts of a word from an offset on, and its end; `plain` is where the plain part began
that the walk is in. -/
def parts (plain pos : Nat) : Walk (List Segment × Nat) :=
  match _ : byteAt text pos with
  | none => do
    let last ← plainPart text plain pos
    return (last, pos)
  | some b =>
    if isSpace b || isOperator b then do
      let last ← plainPart text plain pos
      return (last, pos)
    else if isQuote b || b = '$' then do
      let before ← plainPart text plain pos
      let stop ← partEnd text b pos
      if _ : pos < stop then do
        let part ← slice text pos stop
        let behind ← parts stop stop
        let seg := if b = '$' then Segment.parameter part else Segment.quoted part
        return (before ++ seg :: behind.1, behind.2)
      else .error .stuck
    else if b = '\\' then do
      let shielded ← shieldedLength text (pos + 1)
      parts plain (pos + 1 + shielded)
    else parts plain (pos + 1)
termination_by byteLength text - pos
decreasing_by
  all_goals
    have := lt_of_byteAt ‹_›
    omega

/-- The tokens of one step, the position behind it and where it stops. -/
structure Step where
  tokens : List Token
  position : Position
  stop : Nat

/-- One step from an offset on, at which the byte `b` stands. -/
def step (p : Position) (start : Nat) (b : Char) : Walk Step :=
  if isSpace b then do
    let stop := skip text isSpace start
    let space ← slice text start stop
    return ⟨[.ofChars .whitespace space], afterSpace p space, stop⟩
  else if b = '#' then do
    let stop ← commentEnd text start
    let comment ← slice text start stop
    return ⟨[.ofChars .comment comment], p, stop⟩
  else if isOperator b then do
    let stop := operatorEnd text start
    let op ← slice text start stop
    return ⟨[.ofChars .operator op], afterOperator p op, stop⟩
  else do
    let word ← parts text start start
    -- The word is looked up as a whole.
    let _ ← slice text start word.2
    return ⟨(classify p word.1).1, (classify p word.1).2, word.2⟩

/-- The tokens of a text from an offset on. -/
def walkFrom (p : Position) (pos : Nat) : Walk (List Token) :=
  match _ : byteAt text pos with
  | none => .ok []
  | some b => do
    let taken ← step text p pos b
    if _ : pos < taken.stop ∧ taken.stop ≤ byteLength text then do
      let behind ← walkFrom taken.position taken.stop
      return taken.tokens ++ behind
    else .error .stuck
termination_by byteLength text - pos
decreasing_by
  have := lt_of_byteAt ‹_›
  omega

end

/-- The tokens of a text, or the fault of a text with a NUL character. -/
def walk (text : String) : Walk (Except LexFault (List Token)) :=
  match beforeNul? text.toList with
  | some front => .ok (.error ⟨"shell", .nul (byteLength front)⟩)
  | none => do
    let tokens ← walkFrom text.toList .start 0
    return .ok tokens

/-! ## Tests of bytes -/

theorem asciiOnly_isSpace : AsciiOnly isSpace :=
  .or (.or (.or (.eq_char (by decide)) (.eq_char (by decide))) (.eq_char (by decide)))
    (.eq_char (by decide))

theorem asciiOnly_isOperator : AsciiOnly isOperator := .elem (by decide)

theorem asciiOnly_isQuote : AsciiOnly isQuote := .or (.eq_char (by decide)) (.eq_char (by decide))

theorem asciiOnly_special : AsciiOnly fun c => isQuote c || c = '$' :=
  .or asciiOnly_isQuote (.eq_char (by decide))

theorem asciiOnly_endsRun : AsciiOnly endsRun :=
  .or (.or (.or asciiOnly_isSpace asciiOnly_isOperator) asciiOnly_isQuote) (.eq_char (by decide))

theorem asciiOnly_isNameStart : AsciiOnly isNameStart := .or .isAlpha (.eq_char (by decide))

theorem asciiOnly_isNameChar : AsciiOnly isNameChar :=
  .or (.or .isAlpha .isDigit) (.eq_char (by decide))

theorem asciiOnly_second (c : Char) : AsciiOnly fun d => twoCharOperators.contains (c, d) := by
  have hall : ∀ op ∈ twoCharOperators, op.2.toNat < 128 := by decide
  intro d hd
  exact hall (c, d) (List.contains_iff_mem.1 hd)

theorem asciiOnly_isSpecialParameter : AsciiOnly isSpecialParameter := .elem (by decide)

/-! ## The functions of the walk -/

section

variable {text front : List Char}

theorem charLength_eq {c : Char} {cs : List Char} (e : text = front ++ c :: cs) :
    charLength text (byteLength front) = .ok c.utf8Size := by
  rw [charLength, e, cut_append, ok_bind]
  rfl

theorem shieldedLength_eq {c : Char} {cs : List Char} (e : text = front ++ c :: cs) :
    shieldedLength text (byteLength front) = .ok c.utf8Size := by
  have hlt : byteLength front < byteLength text := by
    have := c.utf8Size_pos
    rw [e, byteLength_append, byteLength]
    omega
  rw [shieldedLength, if_pos hlt, charLength_eq e]

theorem shieldedLength_end : shieldedLength text (byteLength text) = .ok 0 :=
  if_neg (Nat.lt_irrefl _)

/-! ### Runs of one kind -/

theorem skip_end {test : Char → Bool} : skip text test (byteLength text) = byteLength text := by
  rw [skip]
  split <;> simp_all [byteAt_end]

theorem skip_byte {test : Char → Bool} {pos : Nat} {b : Char} (hb : byteAt text pos = some b) :
    skip text test pos = if test b then skip text test (pos + 1) else pos := by
  rw [skip]
  split <;> simp_all

theorem skip_eq {test : Char → Bool} (htest : AsciiOnly test) {s : List Char}
    (e : text = front ++ s) :
    skip text test (byteLength front) = byteLength (front ++ s.takeWhile test) := by
  induction s generalizing front with
  | nil =>
    rw [List.append_nil] at e
    rw [← e, skip_end, List.takeWhile_nil, List.append_nil]
  | cons c cs ih =>
    obtain ⟨b, hb, hlike⟩ := byteAt_front e
    rw [skip_byte hb, hlike.test_eq htest]
    by_cases hc : test c = true
    · rw [if_pos hc, ← byteLength_concat_ascii front (htest c hc),
        ih (by rw [e, List.append_cons]), List.takeWhile_cons_of_pos hc, ← List.append_cons]
    · rw [if_neg hc, List.takeWhile_cons_of_neg hc, List.append_nil]

theorem commentEnd_eq {s : List Char} (e : text = front ++ s) :
    commentEnd text (byteLength front) = .ok (byteLength (front ++ s.takeWhile (· ≠ '\n'))) := by
  rw [commentEnd, e, cut_append, ok_bind, byteLength_append]
  rfl

theorem operatorEnd_eq {c : Char} {cs : List Char} (hc : isOperator c = true)
    (e : text = front ++ c :: cs) :
    operatorEnd text (byteLength front) = byteLength (front ++ (operator c cs).1) := by
  have hnext := byteLength_concat_ascii front (asciiOnly_isOperator c hc)
  obtain ⟨b, hb, hlike⟩ := byteAt_front e
  obtain rfl : b = c := (hlike.eq_iff (asciiOnly_isOperator c hc)).2 rfl
  rw [operatorEnd, hb, ← hnext]
  cases cs with
  | nil =>
    rw [← e, byteAt_end, e]
    rfl
  | cons d ds =>
    rw [List.append_cons] at e
    obtain ⟨b', hb', hlike'⟩ := byteAt_front e
    rw [hb', operator]
    dsimp only
    rw [hlike'.test_eq (asciiOnly_second b)]
    split
    · next hpair =>
      rw [List.append_cons, byteLength_concat_ascii _ (asciiOnly_second b d hpair), hnext]
    · rfl

/-! ### Quoted strings -/

theorem quotedEnd_end {q : Char} : quotedEnd text q (byteLength text) = .ok (byteLength text) := by
  rw [quotedEnd]
  split <;> simp_all [byteAt_end]

theorem quotedEnd_byte {q b : Char} {pos : Nat} (hb : byteAt text pos = some b) :
    quotedEnd text q pos =
      if b = q then .ok (pos + 1)
      else if b = '\\' ∧ q = '"' then do
        let shielded ← shieldedLength text (pos + 1)
        quotedEnd text q (pos + 1 + shielded)
      else quotedEnd text q (pos + 1) := by
  rw [quotedEnd]
  split <;> simp_all

/-- What the walk makes of one character of a string. -/
theorem quotedEnd_char {q c : Char} {cs : List Char} (hq : q.toNat < 128)
    (e : text = front ++ c :: cs) :
    quotedEnd text q (byteLength front) =
      if c = q then .ok (byteLength (front ++ [c]))
      else if c = '\\' ∧ q = '"' then do
        let shielded ← shieldedLength text (byteLength (front ++ [c]))
        quotedEnd text q (byteLength (front ++ [c]) + shielded)
      else quotedEnd text q (byteLength (front ++ [c])) := by
  obtain ⟨b, hb, hlike⟩ := byteAt_front e
  have hbackslash : b = '\\' ↔ c = '\\' := hlike.eq_iff (by decide)
  rw [quotedEnd_byte hb]
  simp only [hlike.eq_iff hq, hbackslash]
  split
  · next hc =>
    subst hc
    rw [byteLength_concat_ascii front hq]
  · split
    · next hc =>
      rw [byteLength_concat_ascii front (show c.toNat < 128 by rw [hc.1]; decide)]
    · refine walk_char e fun pos b hb hwide => ?_
      have hb' : b ≠ '\\' := by
        rintro rfl
        exact absurd hwide (by decide)
      rw [quotedEnd_byte hb, if_neg (by rintro rfl; omega), if_neg (fun h => hb' h.1)]

theorem quotedEnd_eq {q : Char} (hq : q.toNat < 128) {s : List Char} (e : text = front ++ s) :
    quotedEnd text q (byteLength front) = .ok (byteLength (front ++ (quoted q s).1)) := by
  fun_induction quoted q s generalizing front with
  | case1 =>
    rw [List.append_nil] at e
    rw [← e, quotedEnd_end, List.append_nil, e]
  | case2 c =>
    rw [quotedEnd_char hq e, ← e, shieldedLength_end, ok_bind, Nat.add_zero, quotedEnd_end]
    simp only [ite_self]
  | case3 d ds => rw [quotedEnd_char hq e, if_pos rfl]
  | case4 c d ds h h' ih =>
    have e' : text = front ++ [c] ++ d :: ds := by rw [e, List.append_cons]
    rw [quotedEnd_char hq e, if_neg h, if_pos h', shieldedLength_eq e', ok_bind,
      ← byteLength_concat, ih (by rw [e', List.append_cons]), having_fst, having_fst,
      ← List.append_cons, ← List.append_cons]
  | case5 c d ds h h' ih =>
    rw [quotedEnd_char hq e, if_neg h, if_neg h', ih (by rw [e, List.append_cons]), having_fst,
      ← List.append_cons]

/-! ### Parameters -/

theorem closingEnd_end {o c : Char} {depth : Nat} :
    closingEnd text o c depth (byteLength text) = .ok (byteLength text) := by
  rw [closingEnd]
  split <;> simp_all [byteAt_end]

theorem closingEnd_byte {o c b : Char} {depth pos : Nat} (hb : byteAt text pos = some b) :
    closingEnd text o c depth pos =
      if b = o then closingEnd text o c (depth + 1) (pos + 1)
      else if b = c then do
        let left ← minus depth 1
        if left = 0 then return pos + 1 else closingEnd text o c left (pos + 1)
      else closingEnd text o c depth (pos + 1) := by
  rw [closingEnd]
  split <;> simp_all

/-- What the walk makes of one character inside a bracket. -/
theorem closingEnd_char {o c x : Char} {xs : List Char} {depth : Nat} (ho : o.toNat < 128)
    (hc : c.toNat < 128) (e : text = front ++ x :: xs) :
    closingEnd text o c depth (byteLength front) =
      if x = o then closingEnd text o c (depth + 1) (byteLength (front ++ [x]))
      else if x = c then do
        let left ← minus depth 1
        if left = 0 then return byteLength (front ++ [x])
        else closingEnd text o c left (byteLength (front ++ [x]))
      else closingEnd text o c depth (byteLength (front ++ [x])) := by
  obtain ⟨b, hb, hlike⟩ := byteAt_front e
  rw [closingEnd_byte hb]
  simp only [hlike.eq_iff ho, hlike.eq_iff hc]
  split
  · next h =>
    subst h
    rw [byteLength_concat_ascii front ho]
  · split
    · next h =>
      subst h
      rw [byteLength_concat_ascii front hc]
    · refine walk_char e fun pos b hb hwide => ?_
      rw [closingEnd_byte hb, if_neg (by rintro rfl; omega), if_neg (by rintro rfl; omega)]

/-- Where a bracket is open, none is closed that is not. -/
theorem closingEnd_eq {o c : Char} (ho : o.toNat < 128) (hc : c.toNat < 128) {depth : Nat}
    (hdepth : 1 ≤ depth) {s : List Char} (e : text = front ++ s) :
    closingEnd text o c depth (byteLength front) =
      .ok (byteLength (front ++ (closed o c depth s).1)) := by
  induction s generalizing front depth with
  | nil =>
    rw [List.append_nil] at e
    rw [← e, closingEnd_end, closed, List.append_nil, e]
  | cons x xs ih =>
    have e' : text = front ++ [x] ++ xs := by rw [e, List.append_cons]
    rw [closingEnd_char ho hc e, closed]
    split
    · rw [ih (Nat.le_add_left 1 depth) e', having_fst, ← List.append_cons]
    · split
      · rw [minus, if_pos hdepth, ok_bind]
        by_cases hlast : depth ≤ 1
        · rw [if_pos (by omega), if_pos hlast]
          rfl
        · rw [if_neg (by omega), if_neg hlast, ih (by omega) e', having_fst, ← List.append_cons]
      · rw [ih hdepth e', having_fst, ← List.append_cons]

/-- The walk meets the opening bracket first, so the count does not fall below zero. -/
theorem closingEnd_opener {o c : Char} (ho : o.toNat < 128) (hc : c.toNat < 128) {s : List Char}
    (e : text = front ++ o :: s) :
    closingEnd text o c 0 (byteLength front) =
      .ok (byteLength (front ++ o :: (closed o c 1 s).1)) := by
  rw [closingEnd_char ho hc e, if_pos rfl,
    closingEnd_eq ho hc (Nat.le_refl 1) (by rw [e, List.append_cons]), ← List.append_cons]

theorem parameterEnd_eq {cs : List Char} (e : text = front ++ '$' :: cs) :
    parameterEnd text (byteLength front) =
      .ok (byteLength (front ++ '$' :: (parameter cs).1)) := by
  have hstart : byteLength front + 1 = byteLength (front ++ ['$']) :=
    (byteLength_concat_ascii front (by decide)).symm
  rw [List.append_cons] at e ⊢
  rw [parameterEnd, hstart]
  generalize front ++ ['$'] = behind at e hstart ⊢
  cases cs with
  | nil =>
    rw [List.append_nil] at e
    rw [← e, byteAt_end, parameter, List.append_nil, e]
  | cons c cs =>
    obtain ⟨b, hb, hlike⟩ := byteAt_front e
    rw [hb, parameter]
    dsimp only
    have hbrace : b = '\x7b' ↔ c = '\x7b' := hlike.eq_iff (by decide)
    have hparen : b = '(' ↔ c = '(' := hlike.eq_iff (by decide)
    have hone : AsciiOnly fun x => x.isDigit || isSpecialParameter x :=
      .or .isDigit asciiOnly_isSpecialParameter
    rw [hlike.test_eq asciiOnly_isNameStart, hlike.test_eq hone]
    simp only [hbrace, hparen]
    split
    · next h =>
      subst h
      exact closingEnd_opener (by decide) (by decide) e
    · split
      · next h =>
        subst h
        exact closingEnd_opener (by decide) (by decide) e
      · split
        · exact congrArg _ (skip_eq asciiOnly_isNameChar e)
        · split
          · next h =>
            rw [byteLength_concat_ascii behind (hone c h), ← hstart]
          · rw [List.append_nil]

end

/-! ### Words -/

section

variable {text front : List Char}

theorem plainPart_self (pos : Nat) : plainPart text pos pos = .ok [] := if_neg (Nat.lt_irrefl pos)

theorem plainPart_eq {part s : List Char} (hpart : part ≠ []) (e : text = front ++ (part ++ s)) :
    plainPart text (byteLength front) (byteLength (front ++ part)) = .ok [.plain part] := by
  rw [plainPart, if_pos (byteLength_lt_append front hpart), slice_append e]
  rfl

theorem parts_end {plain : Nat} :
    parts text plain (byteLength text) = do
      let last ← plainPart text plain (byteLength text)
      return (last, byteLength text) := by
  rw [parts]
  split <;> simp_all [byteAt_end]

theorem parts_byte {plain pos : Nat} {b : Char} (hb : byteAt text pos = some b) :
    parts text plain pos =
      if isSpace b || isOperator b then do
        let last ← plainPart text plain pos
        return (last, pos)
      else if isQuote b || b = '$' then do
        let before ← plainPart text plain pos
        let stop ← partEnd text b pos
        if _ : pos < stop then do
          let part ← slice text pos stop
          let behind ← parts text stop stop
          let seg := if b = '$' then Segment.parameter part else Segment.quoted part
          return (before ++ seg :: behind.1, behind.2)
        else .error .stuck
      else if b = '\\' then do
        let shielded ← shieldedLength text (pos + 1)
        parts text plain (pos + 1 + shielded)
      else parts text plain (pos + 1) := by
  rw [parts]
  split <;> simp_all

/-- Bytes that end no run leave the plain part open. -/
theorem parts_open {plain pos : Nat} {b : Char} (hb : byteAt text pos = some b)
    (h : endsRun b = false) :
    parts text plain pos =
      if b = '\\' then do
        let shielded ← shieldedLength text (pos + 1)
        parts text plain (pos + 1 + shielded)
      else parts text plain (pos + 1) := by
  have hparts : (isSpace b || isOperator b) = false ∧ (isQuote b || b = '$') = false := by
    rw [endsRun, Bool.or_assoc] at h
    exact Bool.or_eq_false_iff.1 h
  rw [parts_byte hb, if_neg (ne_true_of_eq_false hparts.1), if_neg (ne_true_of_eq_false hparts.2)]

theorem parts_open_char {plain : Nat} {c : Char} {cs : List Char} (h : endsRun c = false)
    (e : text = front ++ c :: cs) :
    parts text plain (byteLength front) =
      if c = '\\' then do
        let shielded ← shieldedLength text (byteLength (front ++ [c]))
        parts text plain (byteLength (front ++ [c]) + shielded)
      else parts text plain (byteLength (front ++ [c])) := by
  obtain ⟨b, hb, hlike⟩ := byteAt_front e
  have hbackslash : b = '\\' ↔ c = '\\' := hlike.eq_iff (by decide)
  rw [parts_open hb (by rw [hlike.test_eq asciiOnly_endsRun, h])]
  simp only [hbackslash]
  split
  · next hc => rw [byteLength_concat_ascii front (show c.toNat < 128 by rw [hc]; decide)]
  · refine walk_char e fun pos b hb hwide => ?_
    have hends : endsRun b = false := by
      rw [Bool.eq_false_iff]
      intro h'
      exact absurd hwide (Nat.not_le.2 (asciiOnly_endsRun b h'))
    rw [parts_open hb hends, if_neg (by rintro rfl; exact absurd hwide (by decide))]

/-- The walk goes over an unquoted run and leaves its plain part open. -/
theorem parts_run {plain : Nat} {s : List Char} (e : text = front ++ s) :
    parts text plain (byteLength front) = parts text plain (byteLength (front ++ (run s).1)) := by
  fun_induction run s generalizing front with
  | case1 => rw [List.append_nil]
  | case2 => rw [List.append_nil]
  | case3 c h =>
    rw [parts_open_char (Bool.eq_false_iff.2 h) e, ← e, shieldedLength_end, ok_bind, Nat.add_zero,
      ite_self]
  | case4 => rw [List.append_nil]
  | case5 d ds h ih =>
    have e' : text = front ++ ['\\'] ++ d :: ds := by rw [e, List.append_cons]
    rw [parts_open_char (Bool.eq_false_iff.2 h) e, if_pos rfl, shieldedLength_eq e', ok_bind,
      ← byteLength_concat, ih (by rw [e', List.append_cons]), having_fst, having_fst,
      ← List.append_cons, ← List.append_cons]
  | case6 c d ds h h' ih =>
    rw [parts_open_char (Bool.eq_false_iff.2 h) e, if_neg h', ih (by rw [e, List.append_cons]),
      having_fst, ← List.append_cons]

/-- Where a run ends, the plain part is closed. -/
theorem parts_closed {plain : Nat} {last : List Segment} {s : List Char}
    (hs : ∀ c ∈ s.head?, endsRun c = true) (e : text = front ++ s)
    (hlast : plainPart text plain (byteLength front) = .ok last) :
    parts text plain (byteLength front) = do
      let behind ← parts text (byteLength front) (byteLength front)
      return (last ++ behind.1, behind.2) := by
  cases s with
  | nil =>
    rw [List.append_nil] at e
    subst e
    rw [parts_end, parts_end, plainPart_self, hlast]
    exact congrArg (fun parts => Except.ok (parts, byteLength text)) (List.append_nil last).symm
  | cons c cs =>
    obtain ⟨b, hb, hlike⟩ := byteAt_front e
    have hends : (isSpace b || isOperator b) = true ∨ (isQuote b || b = '$') = true := by
      have hc : endsRun b = true := by rw [hlike.test_eq asciiOnly_endsRun, hs c rfl]
      rw [endsRun, Bool.or_assoc] at hc
      exact Bool.or_eq_true_iff.1 hc
    rw [parts_byte hb, parts_byte hb, plainPart_self, hlast]
    by_cases hplain : (isSpace b || isOperator b) = true
    · simp only [if_pos hplain, ok_bind]
      exact congrArg (fun parts => Except.ok (parts, _)) (List.append_nil last).symm
    · simp only [if_neg hplain, if_pos (hends.resolve_left hplain), ok_bind]
      cases partEnd text b (byteLength front) with
      | error _ => rfl
      | ok stop =>
        simp only [ok_bind]
        split
        · cases slice text (byteLength front) stop with
          | error _ => rfl
          | ok part => cases parts text stop stop <;> rfl
        · rfl

/-- A part in quotes or a parameter. -/
theorem parts_special {c : Char} {body rest : List Char} (hc : (isQuote c || c = '$') = true)
    (e : text = front ++ (c :: body ++ rest))
    (hstop : partEnd text c (byteLength front) = .ok (byteLength (front ++ c :: body))) :
    parts text (byteLength front) (byteLength front) = do
      let behind ← parts text (byteLength (front ++ c :: body)) (byteLength (front ++ c :: body))
      return ((if c = '$' then .parameter (c :: body) else .quoted (c :: body)) :: behind.1,
        behind.2) := by
  obtain ⟨b, hb, hlike⟩ := byteAt_front e
  obtain rfl : b = c := (hlike.eq_iff (asciiOnly_special c hc)).2 rfl
  have hplain : (isSpace b || isOperator b) = false := by
    simp only [isQuote, Bool.or_eq_true, decide_eq_true_eq] at hc
    rcases hc with (rfl | rfl) | rfl <;> decide
  rw [parts_byte hb, if_neg (ne_true_of_eq_false hplain), if_pos hc, plainPart_self, ok_bind,
    hstop, ok_bind, dif_pos (byteLength_lt_append front (List.cons_ne_nil _ _)), slice_append e]
  rfl

theorem parts_eq {s : List Char} (e : text = front ++ s) :
    parts text (byteLength front) (byteLength front) =
      .ok ((word s).1, byteLength (front ++ wordText (word s).1)) := by
  fun_induction word s generalizing front with
  | case1 =>
    rw [List.append_nil] at e
    rw [← e, parts_end, plainPart_self, ok_bind, wordText, List.map_nil, List.flatten_nil,
      List.append_nil, e]
    rfl
  | case2 c cs h =>
    obtain ⟨b, hb, hlike⟩ := byteAt_front e
    rw [parts_byte hb, hlike.test_eq (asciiOnly_isSpace.or asciiOnly_isOperator), if_pos h,
      plainPart_self, ok_bind, wordText, List.map_nil, List.flatten_nil, List.append_nil]
    rfl
  | case3 c cs h h' ih =>
    have hc : c ≠ '$' := by
      rintro rfl
      exact absurd h' (by decide)
    have hascii := asciiOnly_isQuote c h'
    have hstop : partEnd text c (byteLength front) =
        .ok (byteLength (front ++ c :: (quoted c cs).1)) := by
      rw [partEnd, if_neg hc, ← byteLength_concat_ascii front hascii,
        quotedEnd_eq hascii (by rw [e, List.append_cons]), ← List.append_cons]
    rw [parts_special (by rw [h', Bool.true_or]) (by rw [e, List.cons_append, quoted_append])
      hstop, ih (by rw [e, List.append_assoc, List.cons_append, quoted_append]), ok_bind,
      if_neg hc, having_fst, wordText_cons, ← List.append_assoc]
    rfl
  | case4 cs h h' ih =>
    have hstop : partEnd text '$' (byteLength front) =
        .ok (byteLength (front ++ '$' :: (parameter cs).1)) := by
      rw [partEnd, if_pos rfl, parameterEnd_eq e]
    rw [parts_special (by rfl) (by rw [e, List.cons_append, parameter_append]) hstop,
      ih (by rw [e, List.append_assoc, List.cons_append, parameter_append]), ok_bind,
      if_pos rfl, having_fst, wordText_cons, ← List.append_assoc]
    rfl
  | case5 c cs h h' h'' ih =>
    have hrun : endsRun c = false := by
      simp_all [endsRun]
    have hne : (run (c :: cs)).1 ≠ [] := List.ne_nil_of_length_pos (one_le_length_run hrun)
    have e' : text = front ++ (run (c :: cs)).1 ++ (run (c :: cs)).2 := by
      rw [e, List.append_assoc, run_append]
    rw [parts_run e, parts_closed (head_of_run_rest _) e'
      (plainPart_eq hne (by rw [e', List.append_assoc])), ih e', ok_bind, having_fst,
      wordText_cons, ← List.append_assoc]
    rfl

/-! ## The whole walk -/

theorem text_takeWhile (test : Char → Bool) {s : List Char} (e : text = front ++ s) :
    text = front ++ (s.takeWhile test ++ s.dropWhile test) := by
  rw [e, List.takeWhile_append_dropWhile]

/-- A step takes as many bytes as its tokens have. -/
theorem step_eq (p : Position) {b c : Char} {cs : List Char} (hlike : Alike b c)
    (e : text = front ++ c :: cs) :
    step text p (byteLength front) b =
      .ok ⟨(next p c cs).tokens, (next p c cs).position,
        byteLength (front ++ charsOf (next p c cs).tokens)⟩ := by
  have hcomment : b = '#' ↔ c = '#' := hlike.eq_iff (by decide)
  have hsingle : ∀ (kind : TokenKind) (s : List Char), charsOf [.ofChars kind s] = s := by
    intro kind s
    rw [charsOf_cons, charsOf_nil, toList_text_ofChars, List.append_nil]
  rw [step, next, hlike.test_eq asciiOnly_isSpace, hlike.test_eq asciiOnly_isOperator]
  simp only [hcomment]
  split
  · have hslice := slice_append (text_takeWhile isSpace e)
    rw [skip_eq asciiOnly_isSpace e, hslice, hsingle]
    rfl
  · split
    · have hslice := slice_append (text_takeWhile (· ≠ '\n') e)
      rw [commentEnd_eq e, ok_bind, hslice, hsingle]
      rfl
    · split
      · next hop =>
        have hslice := slice_append (by rw [e, operator_append] :
          text = front ++ ((operator c cs).1 ++ (operator c cs).2))
        rw [operatorEnd_eq hop e, hslice, hsingle]
        rfl
      · have hslice := slice_append (by rw [e, wordText_append_rest] :
          text = front ++ (wordText (word (c :: cs)).1 ++ (word (c :: cs)).2))
        have hchars := (cuts_classify p fun _ => text_ne_nil_of_mem_word (s := c :: cs)).chars
        rw [parts_eq e, ok_bind, hslice, hchars]
        rfl

theorem walkFrom_end {p : Position} : walkFrom text p (byteLength text) = .ok [] := by
  rw [walkFrom]
  split <;> simp_all [byteAt_end]

theorem walkFrom_byte {p : Position} {pos : Nat} {b : Char} (hb : byteAt text pos = some b) :
    walkFrom text p pos = (do
      let taken ← step text p pos b
      if _ : pos < taken.stop ∧ taken.stop ≤ byteLength text then do
        let behind ← walkFrom text taken.position taken.stop
        return taken.tokens ++ behind
      else .error .stuck) := by
  rw [walkFrom]
  split <;> simp_all

/-- The walk from an offset on gives the tokens of the text behind it. -/
theorem walkFrom_eq {p : Position} {s : List Char} (e : text = front ++ s) :
    walkFrom text p (byteLength front) = .ok (scan p s) := by
  fun_induction scan p s generalizing front with
  | case1 =>
    rw [List.append_nil] at e
    rw [← e, walkFrom_end]
  | case2 p c cs ih =>
    obtain ⟨b, hb, hlike⟩ := byteAt_front e
    obtain ⟨taken, hcut, htaken⟩ := cuts_next p c cs
    have e' : text = front ++ charsOf (next p c cs).tokens ++ (next p c cs).rest := by
      rw [e, hcut.chars, List.append_assoc, htaken]
    have hne : charsOf (next p c cs).tokens ≠ [] := by
      intro hnil
      rw [← hcut.chars, hnil, List.nil_append] at htaken
      have hlen := next_length p c cs
      rw [htaken, List.length_cons] at hlen
      omega
    have hle : byteLength (front ++ charsOf (next p c cs).tokens) ≤ byteLength text := by
      rw [e', byteLength_append _ (next p c cs).rest]
      exact Nat.le_add_right _ _
    rw [walkFrom_byte hb, step_eq p hlike e, ok_bind,
      dif_pos ⟨byteLength_lt_append front hne, hle⟩, ih e', ok_bind]
    rfl

end

theorem walk_eq (text : String) : walk text = .ok (lexer.tokenize text) := by
  have h : walkFrom text.toList .start 0 = .ok (scan .start text.toList) :=
    walkFrom_eq (show text.toList = [] ++ text.toList from rfl)
  unfold walk lexer Lexer.rejectingNul
  dsimp only
  cases beforeNul? text.toList with
  | none => rw [h]; rfl
  | some front => rfl

end StepLog.Shell.Bytewise
