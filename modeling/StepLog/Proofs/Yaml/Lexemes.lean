/-
  Lexemes of keys and values that are words.

  Between two entries a run is told by its column, the mappings around it and the lexemes so far
  (`Goes`): where else it stands does not matter, as no key is long enough to be too far behind at
  its colon. The first key of a mapping is read as if the mapping had been open (`goes_in`), although
  its start is put in only at the colon. A value is read up to the first word of the next line
  (`goes_entry`), whose column then ends the mappings that are indented further (`goes_back`).
-/
import StepLog.Proofs.Config.Sections

namespace StepLog.Yaml

/-! ## Cursors -/

namespace Cursor

theorem forward_zero (c : Cursor) : c.forward 0 = c := rfl

theorem forward_forward (c : Cursor) (m n : Nat) : (c.forward m).forward n = c.forward (m + n) := by
  unfold forward
  rw [List.drop_drop, Nat.add_assoc, Nat.add_assoc]

theorem goTo_append {c : Cursor} {front rest : List Char} (h : c.rest = front ++ rest) :
    c.goTo rest = c.forward front.length := by
  unfold goTo
  rw [h, List.length_append, Nat.add_sub_cancel]

theorem rest_forward {c : Cursor} {front rest : List Char} (h : c.rest = front ++ rest) :
    (c.forward front.length).rest = rest := by
  show c.rest.drop front.length = rest
  rw [h, List.drop_left]

end Cursor

/-- Behind a line break and the spaces at the front of the next line. -/
theorem Cursor.rest_nextLine (c : Cursor) (n : Nat) (rest : List Char) :
    ((c.nextLine (spaces n ++ rest)).forward n).rest = rest ∧
      ((c.nextLine (spaces n ++ rest)).forward n).column = n := by
  have hlength : (spaces n).length = n := List.length_replicate
  have hrest := Cursor.rest_forward
    (show (c.nextLine (spaces n ++ rest)).rest = spaces n ++ rest from rfl)
  rw [hlength] at hrest
  exact ⟨hrest, Nat.zero_add n⟩

/-- A text starts with no blank space, comment, mark or line break. -/
def Bare (s : List Char) : Prop :=
  ∀ c ∈ s.head?, isBlank c = false ∧ isBreak c = false ∧ c ≠ '#' ∧ c ≠ '\uFEFF'

theorem bare_nil : Bare [] := nofun

theorem bare_colon (s : List Char) : Bare (':' :: s) := by
  rintro c ⟨⟩
  decide

theorem isBlank_letter {c : Char} (h : c.isAlpha = true) : isBlank c = false := by
  unfold isBlank
  rw [decide_eq_false (ne_of_isAlpha h rfl), decide_eq_false (ne_of_isAlpha h rfl)]
  rfl

theorem isBreak_letter {c : Char} (h : c.isAlpha = true) : isBreak c = false := by
  unfold isBreak
  rw [decide_eq_false (ne_of_isAlpha h rfl), decide_eq_false (ne_of_isAlpha h rfl),
    decide_eq_false (ne_of_isAlpha h rfl), decide_eq_false (ne_of_isAlpha h rfl),
    decide_eq_false (ne_of_isAlpha h rfl)]
  rfl

theorem bare_letter {c : Char} (h : c.isAlpha = true) (s : List Char) : Bare (c :: s) := by
  rintro d ⟨⟩
  exact ⟨isBlank_letter h, isBreak_letter h, ne_of_isAlpha h rfl, ne_of_isAlpha h rfl⟩

/-! ## Words -/

theorem plainWord_letters {s : List Char} (h : ∀ c ∈ s, c.isAlpha = true) {rest : List Char}
    (hrest : plainWord false rest = some ([], rest)) :
    plainWord false (s ++ rest) = some (s, rest) := by
  induction s with
  | nil => exact hrest
  | cons c s ih =>
    rw [List.forall_mem_cons] at h
    have hcolon : endsPlain false c (s ++ rest).head? = false := by
      unfold endsPlain
      rw [decide_eq_false (ne_of_isAlpha h.1 rfl)]
      rfl
    have hgap : ¬ (isBlank c || isBreak c) = true := by
      rw [isBlank_letter h.1, isBreak_letter h.1]
      exact Bool.false_ne_true
    rw [List.cons_append, plainWord, if_neg hgap, if_neg (by exact Bool.false_ne_true),
      if_neg (by rw [hcolon]; exact Bool.false_ne_true), ih h.2]
    rfl

/-- A mark stands only where its first character stands. -/
theorem atMark_of_ne {c : Cursor} {d : Char} {s : List Char} (hrest : c.rest = d :: s) {x : Char}
    (hx : d ≠ x) {mark : String} {xs : List Char} (hmark : mark.toList = x :: xs) :
    c.atMark mark = false := by
  have hno : mark.toList.isPrefixOf c.rest = false := by
    rw [hmark, hrest, List.isPrefixOf_cons_cons, beq_eq_false_iff_ne.2 hx.symm]
    rfl
  unfold Cursor.atMark
  rw [hno, Bool.and_false, Bool.false_and]

/-- A word up to what ends it: the rest of its reading. -/
theorem plainScalar_word {word : String} (hword : Letters word) {c : Cursor} {rest : List Char}
    (hc : c.rest = word.toList ++ rest) (hrest : plainWord false rest = some ([], rest))
    (indent : Int) (fuel : Nat) :
    plainScalar false indent (fuel + 1) [] .none c =
      if !rest.head?.any fun x => isBlank x || isBreak x then
        some ⟨word.toList, false, c.forward word.toList.length⟩
      else ((c.forward word.toList.length).gap indent (rest.length + 1) .none).bind fun p =>
        if (p.2.column : Int) < indent then some ⟨word.toList, p.1.broken, p.2⟩
        else plainScalar false indent fuel word.toList p.1 p.2 := by
  obtain ⟨d, ds, hword', hd⟩ := hword.exists_letter
  have hstart : c.rest = d :: (ds ++ rest) := hc.trans (by rw [hword']; rfl)
  have hmark : c.atDocumentMark = false := by
    unfold Cursor.atDocumentMark
    rw [atMark_of_ne hstart (ne_of_isAlpha hd rfl) rfl,
      atMark_of_ne hstart (ne_of_isAlpha hd rfl) rfl]
    rfl
  have hcomment : c.peek? ≠ some '#' := by
    unfold Cursor.peek?
    rw [hstart]
    exact fun h => ne_of_isAlpha hd rfl (Option.some.inj h)
  have hempty : word.toList.isEmpty = false := by
    rw [hword']
    rfl
  have hhere : (c.forward word.toList.length).rest = rest := Cursor.rest_forward hc
  conv_lhs => unfold plainScalar
  rw [hmark, decide_eq_false hcomment, if_neg (by exact Bool.false_ne_true), hc,
    plainWord_letters hword.2 hrest, Option.bind_eq_bind, Option.bind_some]
  dsimp only
  rw [Cursor.goTo_append hc, hempty, if_neg Bool.false_ne_true, if_neg Bool.false_ne_true]
  unfold Cursor.peek?
  rw [hhere]
  simp only [Bool.not_false, Bool.true_and, decide_eq_true_eq]
  rfl

/-- A word before a colon that ends it. -/
theorem plainScalar_key {word : String} (hword : Letters word) {c : Cursor} {rest : List Char}
    (hc : c.rest = word.toList ++ ':' :: rest) (hend : isBlankOrEnd rest.head? = true)
    (indent : Int) (fuel : Nat) :
    plainScalar false indent (fuel + 1) [] .none c =
      some ⟨word.toList, false, c.forward word.toList.length⟩ := by
  have hcolon : plainWord false (':' :: rest) = some ([], ':' :: rest) := by
    unfold plainWord
    rw [if_neg (by decide), if_neg (by exact Bool.false_ne_true),
      if_pos (by unfold endsPlain; rw [hend]; rfl)]
  rw [plainScalar_word hword hc hcolon]
  exact if_pos rfl

/-- In a gap behind a line break spaces are passed over. -/
theorem gap_spaces {g : Gap} (hg : g.broken = true) {n : Nat} {c : Cursor} {rest : List Char}
    (hc : c.rest = spaces n ++ rest) (hrest : Bare rest) (indent : Int) {fuel : Nat}
    (hfuel : n < fuel) : c.gap indent fuel g = some (g, c.forward n) := by
  induction n generalizing c fuel with
  | zero =>
    obtain ⟨fuel, rfl⟩ := Nat.exists_eq_add_of_le' (show 1 ≤ fuel by omega)
    have hpeek : c.peek? = rest.head? := congrArg List.head? hc
    unfold Cursor.gap
    cases rest with
    | nil => rw [hpeek]; rfl
    | cons d rest =>
      obtain ⟨hblank, hbreak, -⟩ := hrest d rfl
      rw [hpeek]
      dsimp only [List.head?_cons]
      rw [hblank, hbreak, if_neg Bool.false_ne_true, if_neg Bool.false_ne_true]
      rfl
  | succ n ih =>
    obtain ⟨fuel, rfl⟩ := Nat.exists_eq_add_of_le' (show 1 ≤ fuel by omega)
    have hpeek : c.peek? = some ' ' := congrArg List.head? hc
    have hforward : (c.forward 1).rest = spaces n ++ rest := by
      show c.rest.drop 1 = _
      rw [hc]
      rfl
    unfold Cursor.gap
    rw [hpeek]
    dsimp only
    rw [hg, if_pos (by decide), if_neg (by exact Bool.false_ne_true), if_pos rfl,
      ih hforward (by omega), Cursor.forward_forward, Nat.add_comm]

/-- A word at the end of a line, with the spaces at the front of the next line. -/
theorem plainScalar_value {word : String} (hword : Letters word) {c : Cursor} {n : Nat}
    {rest : List Char} (hc : c.rest = word.toList ++ '\n' :: (spaces n ++ rest))
    (hrest : Bare rest) {indent : Int} (hindent : (n : Int) < indent) (fuel : Nat) :
    plainScalar false indent (fuel + 1) [] .none c =
      some ⟨word.toList, true,
        ((c.forward word.toList.length).nextLine (spaces n ++ rest)).forward n⟩ := by
  have hbreak : plainWord false ('\n' :: (spaces n ++ rest)) =
      some ([], '\n' :: (spaces n ++ rest)) := if_pos rfl
  have hhere : (c.forward word.toList.length).rest = '\n' :: (spaces n ++ rest) :=
    Cursor.rest_forward hc
  have hpeek : (c.forward word.toList.length).peek? = some '\n' := congrArg List.head? hhere
  have hline : (c.forward word.toList.length).lineBreak =
      (['\n'], (c.forward word.toList.length).nextLine (spaces n ++ rest)) := by
    unfold Cursor.lineBreak
    rw [hhere]
    rfl
  have hgap : (c.forward word.toList.length).gap indent (('\n' :: (spaces n ++ rest)).length + 1)
      .none = some (⟨[], ['\n'], [], true⟩,
        ((c.forward word.toList.length).nextLine (spaces n ++ rest)).forward n) := by
    unfold Cursor.gap
    rw [hpeek]
    dsimp only
    rw [if_neg (by decide), if_pos (by decide), hline, if_neg (by decide)]
    refine gap_spaces rfl rfl hrest indent ?_
    rw [List.length_cons, List.length_append, spaces, List.length_replicate]
    omega
  have hcolumn : (((c.forward word.toList.length).nextLine (spaces n ++ rest)).forward n).column =
      n := Nat.zero_add n
  rw [plainScalar_word hword hc hbreak, if_neg (by exact Bool.false_ne_true), hgap,
    Option.bind_some, hcolumn, if_pos hindent]

/-! ## Steps of a scan -/

namespace Scan

theorem skipSpace_spaces {x : Scan} {n : Nat} {rest : List Char}
    (h : x.cursor.rest = spaces n ++ rest) (hrest : Bare rest) (fuel : Nat) :
    skipSpace (fuel + 1) x = { x with cursor := x.cursor.forward n } := by
  have hmark : x.cursor.peek? ≠ some '\uFEFF' := by
    unfold Cursor.peek?
    rw [h]
    cases n with
    | zero => exact fun he => (hrest _ he).2.2.2 rfl
    | succ n => exact fun he => absurd (Option.some.inj he) (by decide)
  have hspace : ∀ d ∈ spaces n,
      (decide (d = ' ') || (decide (d = '\t') && (x.flow != 0 || !x.keyAllowed))) = true := by
    intro d hd
    rw [List.eq_of_mem_replicate hd]
    rfl
  have hspaces : (x.cursor.rest.takeWhile fun d =>
      d = ' ' || (d = '\t' && (x.flow != 0 || !x.keyAllowed))) = spaces n := by
    rw [h, List.takeWhile_append_of_pos hspace]
    cases rest with
    | nil => exact List.append_nil _
    | cons d rest =>
      obtain ⟨hspace, htab⟩ := Bool.or_eq_false_iff.1 (hrest d rfl).1
      rw [List.takeWhile_cons_of_neg (by rw [hspace, htab]; exact Bool.false_ne_true),
        List.append_nil]
  have hpeek : (x.cursor.forward n).peek? = rest.head? := by
    have hlength : (spaces n).length = n := List.length_replicate
    exact congrArg List.head? (hlength ▸ Cursor.rest_forward h)
  have hcomment : rest.head? ≠ some '#' := fun he => (hrest _ he).2.2.1 rfl
  have hbreak : ¬ rest.head?.any isBreak = true := by
    rw [Option.any_eq_true]
    rintro ⟨d, hd, hbreak⟩
    rw [(hrest d hd).2.1] at hbreak
    cases hbreak
  unfold skipSpace
  dsimp only
  rw [decide_eq_false hmark, Bool.and_false, if_neg Bool.false_ne_true]
  unfold Cursor.skipWhile
  rw [hspaces, spaces, List.length_replicate, hpeek, if_neg hcomment, hpeek, if_neg hbreak]

theorem skipSpace_bare {x : Scan} (h : Bare x.cursor.rest) (fuel : Nat) :
    skipSpace (fuel + 1) x = x :=
  skipSpace_spaces (n := 0) rfl h fuel

theorem skipSpace_break {x : Scan} {n : Nat} {rest : List Char}
    (h : x.cursor.rest = '\n' :: (spaces n ++ rest)) (hrest : Bare rest) (hflow : x.flow = 0)
    (fuel : Nat) :
    skipSpace (fuel + 2) x =
      { x with
        cursor := (x.cursor.nextLine (spaces n ++ rest)).forward n
        keyAllowed := true } := by
  have hpeek : x.cursor.peek? = some '\n' := congrArg List.head? h
  have hline : x.cursor.lineBreak = (['\n'], x.cursor.nextLine (spaces n ++ rest)) := by
    unfold Cursor.lineBreak
    rw [h]
    rfl
  have hnothing : (x.cursor.rest.takeWhile fun d =>
      d = ' ' || (d = '\t' && (x.flow != 0 || !x.keyAllowed))) = [] := by
    rw [h]
    rfl
  have hmark : ¬ (x.cursor.column == 0 && decide (x.cursor.peek? = some '\uFEFF')) = true := by
    rw [hpeek, decide_eq_false (by decide), Bool.and_false]
    exact Bool.false_ne_true
  have hcomment : ¬ some '\n' = some '#' := by decide
  have hbreak : (some '\n').any isBreak = true := rfl
  rw [skipSpace, if_neg hmark]
  unfold Cursor.skipWhile
  rw [hnothing, List.length_nil, Cursor.forward_zero, hpeek, if_neg hcomment, hpeek,
    if_pos hbreak, hline, hflow]
  exact skipSpace_spaces rfl hrest fuel

/-- A collection that is not indented further goes on. -/
theorem unroll_of_le {x : Scan} {column : Int} (h : x.indent ≤ column) : x.unroll column = x := by
  unfold unroll unrollFrom
  rw [decide_eq_false (not_lt.2 h), Bool.and_false, if_neg Bool.false_ne_true]

/-- A collection that is indented further ends. -/
theorem unroll_of_lt {x : Scan} {column outer : Int} {outers : List Int}
    (hindents : x.indents = outer :: outers) (hflow : x.flow = 0) (h : column < x.indent)
    (houter : outer ≤ column) :
    x.unroll column = { x.emit .blockEnd with indent := outer, indents := outers } := by
  have hends : (x.flow == 0 && decide (column < x.indent)) = true := by
    rw [hflow, decide_eq_true h]
    rfl
  unfold unroll
  rw [hindents, List.length_cons, unrollFrom, if_pos hends, hindents, unrollFrom, if_neg]
  · rfl
  · show ¬ (x.flow == 0 && decide (column < outer)) = true
    rw [decide_eq_false (not_lt.2 houter), Bool.and_false]
    exact Bool.false_ne_true

theorem fetch_letter {x : Scan} {c : Char} {s : List Char} (hrest : x.cursor.rest = c :: s)
    (hc : c.isAlpha = true) : x.fetch c s.head? = x.fetchPlain := by
  have hne : ∀ d : Char, d.isAlpha = false → c ≠ d := fun d hd => ne_of_isAlpha hc hd
  have hplain : beginsPlain (x.flow != 0) c s.head? = true := by
    have hreserved : isReserved c = false := by
      have hnone : "-?:,[]\x7b\x7d#&*!|>'\"%@\x60".toList.all (!Char.isAlpha ·) = true := rfl
      rw [Bool.eq_false_iff]
      intro h
      have hno := List.all_eq_true.1 hnone c (List.contains_iff_mem.1 h)
      rw [hc] at hno
      cases hno
    unfold beginsPlain
    rw [isBlank_letter hc, isBreak_letter hc, hreserved]
    rfl
  unfold fetch
  dsimp only
  rw [atMark_of_ne hrest (hne '-' rfl) rfl, atMark_of_ne hrest (hne '.' rfl) rfl]
  simp only [hne '%' rfl, hne '[' rfl, hne '\x7b' rfl, hne ']' rfl, hne '\x7d' rfl, hne ',' rfl,
    hne '-' rfl, hne '?' rfl, hne ':' rfl, hne '*' rfl, hne '&' rfl, hne '!' rfl, hne '|' rfl,
    hne '>' rfl, hne '\'' rfl, hne '"' rfl, hplain, and_false, false_and, or_false, if_false,
    if_true, Bool.false_eq_true]

theorem fetch_colon {x : Scan} {s : List Char} (hrest : x.cursor.rest = ':' :: s)
    (hend : isBlankOrEnd s.head? = true) : x.fetch ':' s.head? = x.fetchValue := by
  unfold fetch
  dsimp only
  rw [atMark_of_ne hrest (x := '-') (by decide) rfl, atMark_of_ne hrest (x := '.') (by decide) rfl]
  rw [hend, Bool.or_true, if_neg fun h => absurd h.2 (by decide)]
  rfl

/-- Lexemes are put in behind those that were there at the place. -/
theorem insertAt_behind {x : Scan} (new later : List Lexeme) {earlier : List Lexeme}
    (h : x.lexemes = later ++ earlier) :
    x.insertAt earlier.length new = { x with lexemes := later ++ new ++ earlier } := by
  unfold insertAt
  dsimp only
  rw [h, List.length_append, Nat.add_sub_cancel, List.take_left, List.drop_left]

/-- A collection that starts further in opens where its first key was. -/
theorem roll_of_lt {x : Scan} {column : Nat} (hflow : x.flow = 0) (h : x.indent < (column : Int))
    (later : List Lexeme) {earlier : List Lexeme} (hlexemes : x.lexemes = later ++ earlier)
    (lexeme : Lexeme) :
    x.roll column earlier.length lexeme =
      { x with
        lexemes := later ++ [lexeme] ++ earlier
        indent := column
        indents := x.indent :: x.indents } := by
  have hopens : (x.flow == 0 && decide (x.indent < (column : Int))) = true := by
    rw [hflow, decide_eq_true h]
    rfl
  unfold roll
  rw [if_pos hopens, insertAt_behind _ later hlexemes]

theorem roll_of_le {x : Scan} {column : Nat} (h : (column : Int) ≤ x.indent) (place : Nat)
    (lexeme : Lexeme) : x.roll column place lexeme = x := by
  unfold roll
  rw [decide_eq_false (not_lt.2 h), Bool.and_false, if_neg Bool.false_ne_true]

/-- A run at a lexeme: behind blank space, with the collections ended that end here. -/
def next (fuel : Nat) (x : Scan) : Option (List Lexeme) :=
  match x.cursor.rest with
  | [] => x.finish
  | c :: rest => (x.fetch c rest.head?).bind (run fuel)

theorem run_eq_next {x y : Scan} (hskip : skipSpace (x.cursor.rest.length + 1) x = y)
    (hstale : y.dropStale = some y) (fuel : Nat) :
    run (fuel + 1) x = next fuel (y.unroll y.cursor.column) := by
  rw [run, hskip, hstale]
  rfl

theorem run_step {x y : Scan} {c : Char} {rest : List Char}
    (hskip : skipSpace (x.cursor.rest.length + 1) x = y) (hstale : y.dropStale = some y)
    (hindent : y.indent ≤ (y.cursor.column : Int)) (hrest : y.cursor.rest = c :: rest)
    (fuel : Nat) : run (fuel + 1) x = (y.fetch c rest.head?).bind (run fuel) := by
  rw [run_eq_next hskip hstale, unroll_of_le hindent, next, hrest]

/-! ## Keys and values -/

/-- A scan between lexemes, outside of flow collections, with no place of a key. -/
def between (indent : Int) (indents : List Int) (allowed : Bool) (lexemes : List Lexeme)
    (c : Cursor) : Scan :=
  ⟨c, 0, indent, indents, allowed, [none], lexemes⟩

/-- The lexemes of a key with its colon, behind the lexemes so far. -/
def keyed (word : String) (lexemes : List Lexeme) : List Lexeme :=
  .value :: .scalar true word.toList :: .key :: lexemes

/-- The place that is remembered for a key that begins at a cursor. -/
def placeOf (indent : Int) (lexemes : List Lexeme) (c : Cursor) : KeyPlace :=
  ⟨indent == (c.column : Int), lexemes.length, c.index, c.line, c.column⟩

/-- The scan behind a word that began at a cursor, if it may be a key. -/
def atColon (word : String) (indent : Int) (indents : List Int) (lexemes : List Lexeme)
    (c : Cursor) : Scan :=
  ⟨c.forward word.toList.length, 0, indent, indents, false, [some (placeOf indent lexemes c)],
    .scalar true word.toList :: lexemes⟩

section
variable {word : String} (hword : Word word) {c : Cursor} {indent : Int} {indents : List Int}
  {lexemes : List Lexeme} {rest : List Char}
include hword

/-- A key as a plain scalar. -/
theorem fetchPlain_key (hc : c.rest = word.toList ++ ':' :: rest)
    (hend : isBlankOrEnd rest.head? = true) :
    (between indent indents true lexemes c).fetchPlain =
      some (atColon word indent indents lexemes c) := by
  have hscalar := plainScalar_key hword.letters hc hend (indent + 1) c.rest.length
  unfold fetchPlain
  show (plainScalar false (indent + 1) (c.rest.length + 1) [] .none c).bind _ = _
  rw [hscalar]
  rfl

/-- The place of a key is not too far behind at its colon. -/
theorem dropStale_atColon : (atColon word indent indents lexemes c).dropStale =
    some (atColon word indent indents lexemes c) := by
  let y := atColon word indent indents lexemes c
  let place := placeOf indent lexemes c
  have hnear : y.isStale place = false := by
    have hshort := hword.short
    show (decide (c.line < c.line) || decide (c.index + 1024 < c.index + word.toList.length)) = _
    rw [decide_eq_false (lt_irrefl _), decide_eq_false (by omega)]
    rfl
  show (if (y.isStale place && place.required || false) = true then none
    else some { y with keys := [if (!y.isStale place) = true then some place else none] }) = _
  rw [hnear]
  rfl

/-- A key up to its colon, which makes it one. -/
theorem run_word (hc : c.rest = word.toList ++ ':' :: rest)
    (hend : isBlankOrEnd rest.head? = true) (hindent : indent ≤ (c.column : Int)) (fuel : Nat) :
    run (fuel + 2) (between indent indents true lexemes c) =
      (atColon word indent indents lexemes c).fetchValue.bind (run fuel) := by
  obtain ⟨d, ds, hletters, hd⟩ := hword.letters.exists_letter
  have hstart : c.rest = d :: (ds ++ ':' :: rest) := hc.trans (by rw [hletters]; rfl)
  have hhere : (c.forward word.toList.length).rest = ':' :: rest := Cursor.rest_forward hc
  have hcolumn : indent ≤ ((c.column + word.toList.length : Nat) : Int) := by omega
  rw [run_step (skipSpace_bare (hstart ▸ bare_letter hd _) _) rfl hindent hstart,
    fetch_letter hstart hd, fetchPlain_key hword hc hend, Option.bind_some,
    run_step (skipSpace_bare (hhere ▸ bare_colon rest) _) (dropStale_atColon hword) hcolumn hhere,
    fetch_colon hhere hend]

/-- A key of the mapping that is open. -/
theorem run_key (hc : c.rest = word.toList ++ ':' :: rest)
    (hend : isBlankOrEnd rest.head? = true) (hindent : indent = c.column) (fuel : Nat) :
    run (fuel + 2) (between indent indents true lexemes c) =
      run fuel (between indent indents false (keyed word lexemes)
        ((c.forward word.toList.length).forward 1)) := by
  rw [run_word hword hc hend hindent.le]
  unfold fetchValue atColon placeOf
  dsimp only
  rw [insertAt_behind [.key] [.scalar true word.toList] rfl, roll_of_le hindent.ge]
  rfl

/-- The first key of a mapping further in is read as if the mapping had been open. -/
theorem run_firstKey (hc : c.rest = word.toList ++ ':' :: rest)
    (hend : isBlankOrEnd rest.head? = true) (hindent : indent < (c.column : Int)) (fuel : Nat) :
    run (fuel + 2) (between indent indents true lexemes c) =
      run (fuel + 2) (between c.column (indent :: indents) true (.blockMappingStart :: lexemes)
        c) := by
  -- The start of the mapping is put in behind the lexemes that were there when the key began.
  rw [run_key hword hc hend rfl, run_word hword hc hend hindent.le]
  unfold fetchValue atColon placeOf
  dsimp only
  rw [insertAt_behind [.key] [.scalar true word.toList] rfl,
    roll_of_lt rfl hindent [.scalar true word.toList, .key] rfl]
  rfl

/-- A value that ends its line, up to the next word. -/
theorem run_value {n : Nat} (hc : c.rest = ' ' :: (word.toList ++ '\n' :: (spaces n ++ rest)))
    (hrest : Bare rest) (hindent : indent ≤ (c.column : Int)) (hn : (n : Int) ≤ indent)
    (fuel : Nat) :
    run (fuel + 1) (between indent indents false lexemes c) =
      run fuel (between indent indents true (.scalar true word.toList :: lexemes)
        ((((c.forward 1).forward word.toList.length).nextLine (spaces n ++ rest)).forward n)) := by
  obtain ⟨d, ds, hletters, hd⟩ := hword.letters.exists_letter
  have hhere : (c.forward 1).rest = word.toList ++ '\n' :: (spaces n ++ rest) :=
    Cursor.rest_forward (show c.rest = [' '] ++ _ from hc)
  have hstart : (c.forward 1).rest = d :: (ds ++ '\n' :: (spaces n ++ rest)) :=
    hhere.trans (by rw [hletters]; rfl)
  have hblank : c.rest = spaces 1 ++ d :: (ds ++ '\n' :: (spaces n ++ rest)) :=
    hc.trans (by rw [hletters]; rfl)
  have hskip : skipSpace (c.rest.length + 1) (between indent indents false lexemes c) =
      between indent indents false lexemes (c.forward 1) :=
    skipSpace_spaces hblank (bare_letter hd _) _
  have hcolumn : indent ≤ ((c.column + 1 : Nat) : Int) := by omega
  have hplain : (between indent indents false lexemes (c.forward 1)).fetchPlain =
      some (between indent indents true (.scalar true word.toList :: lexemes)
        ((((c.forward 1).forward word.toList.length).nextLine (spaces n ++ rest)).forward n)) := by
    have hscalar := plainScalar_value hword.letters hhere hrest (Int.lt_add_one_of_le hn)
      (c.forward 1).rest.length
    unfold fetchPlain
    show (plainScalar false (indent + 1) ((c.forward 1).rest.length + 1) [] .none
      (c.forward 1)).bind _ = _
    rw [hscalar]
    rfl
  rw [run_step hskip rfl hcolumn hstart, fetch_letter hstart hd]
  exact congrArg (Option.bind · (run fuel)) hplain

end

section
variable {n : Nat} {c : Cursor} {indent outer : Int} {indents : List Int} {lexemes : List Lexeme}
  {rest : List Char}

/-- Behind a line break a key may begin. -/
theorem run_break (hc : c.rest = '\n' :: (spaces n ++ rest)) (hrest : Bare rest) (fuel : Nat) :
    run (fuel + 1) (between indent indents false lexemes c) =
      run (fuel + 1) (between indent indents true lexemes
        ((c.nextLine (spaces n ++ rest)).forward n)) := by
  have hlength : c.rest.length = (spaces n ++ rest).length + 1 := by
    rw [hc, List.length_cons]
  have hbehind := (c.rest_nextLine n rest).1
  have hskip : skipSpace (c.rest.length + 1) (between indent indents false lexemes c) =
      between indent indents true lexemes ((c.nextLine (spaces n ++ rest)).forward n) := by
    rw [hlength]
    exact skipSpace_break hc hrest rfl _
  rw [run_eq_next hskip rfl, run_eq_next (skipSpace_bare (hbehind.symm ▸ hrest) _) rfl]

/-- A word further out ends a mapping. -/
theorem run_back (hc : Bare c.rest) (hindent : (c.column : Int) < indent)
    (houter : outer ≤ (c.column : Int)) (fuel : Nat) :
    run (fuel + 1) (between indent (outer :: indents) true lexemes c) =
      run (fuel + 1) (between outer indents true (.blockEnd :: lexemes) c) := by
  have hunroll : (between indent (outer :: indents) true lexemes c).unroll c.column =
      (between outer indents true (.blockEnd :: lexemes) c).unroll c.column := by
    rw [unroll_of_lt rfl rfl hindent houter, unroll_of_le houter]
    rfl
  rw [run_eq_next (skipSpace_bare hc _) rfl, run_eq_next (skipSpace_bare hc _) rfl]
  exact congrArg (next fuel) hunroll

/-- The end of the text ends the outermost mapping. -/
theorem run_end (hc : c.rest = []) (hindent : 0 ≤ indent) (hcolumn : indent ≤ (c.column : Int))
    (fuel : Nat) : run (fuel + 1) (between indent [-1] true lexemes c) =
      some (Lexeme.blockEnd :: lexemes).reverse := by
  have hends : (between indent [-1] true lexemes c).finish =
      some (Lexeme.blockEnd :: lexemes).reverse := by
    unfold finish
    rw [unroll_of_lt rfl rfl (by show (-1 : Int) < indent; omega) (le_refl _)]
    rfl
  have hrest : (between indent [-1] true lexemes c).cursor.rest = [] := hc
  rw [run_eq_next (skipSpace_bare (hrest ▸ bare_nil) _) rfl, unroll_of_le hcolumn, next, hrest]
  exact hends

end

/-! ## Runs over entries -/

/-- A run from a column between lexemes yields all lexemes in the end. -/
def Goes (column : Nat) (indent : Int) (indents : List Int) (lexemes : List Lexeme)
    (rest : List Char) (all : List Lexeme) : Prop :=
  ∀ c : Cursor, c.rest = rest → c.column = column → ∀ fuel, rest.length < fuel →
    run fuel (between indent indents true lexemes c) = some all

section
variable {n column : Nat} {name value : String} {indent outer : Int} {indents : List Int}
  {lexemes all : List Lexeme} {rest : List Char}

theorem rest_behindColon {c : Cursor} (hc : c.rest = name.toList ++ ':' :: rest) :
    ((c.forward name.toList.length).forward 1).rest = rest :=
  Cursor.rest_forward (show _ = [':'] ++ rest from Cursor.rest_forward hc)

/-- A key with its value on one line. -/
theorem goes_entry (hname : Word name) (hvalue : Word value) (hrest : Bare rest) (hn : n ≤ column)
    (h : Goes n column indents (.scalar true value.toList :: keyed name lexemes) rest all) :
    Goes column column indents lexemes
      (name.toList ++ ':' :: ' ' :: (value.toList ++ '\n' :: (spaces n ++ rest))) all := by
  rintro c hc rfl fuel hfuel
  simp only [List.length_append, List.length_cons] at hfuel
  obtain ⟨fuel, rfl⟩ := Nat.exists_eq_add_of_le' (show 3 ≤ fuel by omega)
  have hcolumn : (c.column : Int) ≤ ((c.column + name.toList.length + 1 : Nat) : Int) := by omega
  obtain ⟨hbehind, hplace⟩ := Cursor.rest_nextLine _ n rest
  rw [run_key hname hc rfl rfl,
    run_value hvalue (rest_behindColon hc) hrest hcolumn (Int.ofNat_le.2 hn)]
  exact h _ hbehind hplace fuel (by omega)

/-- A key with its value from the next line on. -/
theorem goes_heading (hname : Word name) (hrest : Bare rest)
    (h : Goes n column indents (keyed name lexemes) rest all) :
    Goes column column indents lexemes (name.toList ++ ':' :: '\n' :: (spaces n ++ rest)) all := by
  rintro c hc rfl fuel hfuel
  simp only [List.length_append, List.length_cons] at hfuel
  obtain ⟨fuel, rfl⟩ := Nat.exists_eq_add_of_le' (show 3 ≤ fuel by omega)
  obtain ⟨hbehind, hplace⟩ := Cursor.rest_nextLine _ n rest
  rw [run_key hname hc rfl rfl, run_break (rest_behindColon hc) hrest]
  exact h _ hbehind hplace (fuel + 1) (by omega)

/-- A key further in opens a mapping. -/
theorem goes_in (hname : Word name) (hend : isBlankOrEnd rest.head? = true)
    (hindent : indent < (column : Int))
    (h : Goes column column (indent :: indents) (.blockMappingStart :: lexemes)
      (name.toList ++ ':' :: rest) all) :
    Goes column indent indents lexemes (name.toList ++ ':' :: rest) all := by
  rintro c hc rfl fuel hfuel
  have hrun := h c hc rfl fuel hfuel
  obtain ⟨d, ds, hletters, -⟩ := hname.letters.exists_letter
  rw [hletters] at hfuel
  simp only [List.length_append, List.length_cons] at hfuel
  obtain ⟨fuel, rfl⟩ := Nat.exists_eq_add_of_le' (show 2 ≤ fuel by omega)
  rw [run_firstKey hname hc hend hindent]
  exact hrun

/-- A word further out ends a mapping. -/
theorem goes_back (hrest : Bare rest) (hindent : (column : Int) < indent)
    (houter : outer ≤ (column : Int))
    (h : Goes column outer indents (.blockEnd :: lexemes) rest all) :
    Goes column indent (outer :: indents) lexemes rest all := by
  rintro c rfl rfl fuel hfuel
  obtain ⟨fuel, rfl⟩ := Nat.exists_eq_add_of_le' (show 1 ≤ fuel by omega)
  rw [run_back hrest hindent houter]
  exact h c rfl rfl _ hfuel

theorem goes_nil (column : Nat) :
    Goes column column [-1] lexemes [] (Lexeme.blockEnd :: lexemes).reverse := by
  rintro c hc rfl fuel hfuel
  obtain ⟨fuel, rfl⟩ := Nat.exists_eq_add_of_le' (show 1 ≤ fuel by omega)
  exact run_end hc (Int.natCast_nonneg _) (le_refl _) fuel

end

end Scan

end StepLog.Yaml
