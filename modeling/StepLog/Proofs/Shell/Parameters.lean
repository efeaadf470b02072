/-
  How far a parameter reaches.

  What stands behind a `$` tells where its parameter ends (`ParameterExtent`): a bracket reaches
  to the first place at which as many closers as openers have been met, a name is as long as can
  be, and everything else takes one character or none. No two fronts of a text have that extent
  (`ParameterExtent.unique`).

  Inside a bracket the closers are fewer than the openers. The count that the reader carries says
  by how many (`Open`), and each character keeps that up (`Open.cons`), so the reader stops where
  it should (`closesFirst_closed`). For the same reason the walk over the bytes, which refuses to
  take a closer off a count of zero, is never asked to. Main statement: `tokenize_parameters`.
-/
import StepLog.Proofs.Shell.Bytewise
import StepLog.Proofs.Shell.Extents
import Mathlib.Tactic.SplitIfs

namespace StepLog.Shell

/-! ## Extents of parameters -/

/-- Of the text behind a `$` that begins with the bracket `opener`, `body` is the front up to the
first place where the closers equal the openers, or it is all there is and has no such place. -/
structure ClosesFirst (opener closer : Char) (body after : List Char) : Prop where
  ne_nil : body ≠ []
  inside : ∀ front, front <+: body → front ≠ [] → front ≠ body →
    front.count closer < front.count opener
  last : body.count closer = body.count opener ∨
    (after = [] ∧ body.count closer < body.count opener)

/-- A run of name characters that no name character follows. -/
def LongestName (body after : List Char) : Prop :=
  (∀ c ∈ body, isNameChar c = true) ∧ ∀ c ∈ after.head?, isNameChar c = false

/-- Of the text behind a `$`, `body` belongs to the parameter and `after` does not. -/
def ParameterExtent (body after : List Char) : Prop :=
  match (body ++ after).head? with
  | none => body = []
  | some c =>
    if c = '{' then ClosesFirst '{' '}' body after
    else if c = '(' then ClosesFirst '(' ')' body after
    else if isNameStart c then LongestName body after
    else if c.isDigit || isSpecialParameter c then body = [c]
    else body = []

/-! ### No two extents -/

theorem ClosesFirst.eq_nil {opener closer : Char} {body more after : List Char}
    (h : ClosesFirst opener closer body (more ++ after))
    (h' : ClosesFirst opener closer (body ++ more) after) : more = [] := by
  rcases h.last with heq | ⟨hnil, -⟩
  · by_cases hproper : body = body ++ more
    · exact List.self_eq_append_right.1 hproper
    · have hlt := h'.inside body (List.prefix_append body more) h.ne_nil hproper
      omega
  · exact (List.append_eq_nil_iff.1 hnil).1

theorem LongestName.eq_nil {body more after : List Char} (h : LongestName body (more ++ after))
    (h' : LongestName (body ++ more) after) : more = [] := by
  cases more with
  | nil => rfl
  | cons c cs =>
    have hname : isNameChar c = true := h'.1 c (by simp)
    have hstop : isNameChar c = false := h.2 c rfl
    rw [hname] at hstop
    cases hstop

/-- No longer front has the extent. -/
theorem ParameterExtent.eq_nil {body more after : List Char}
    (h : ParameterExtent body (more ++ after)) (h' : ParameterExtent (body ++ more) after) :
    more = [] := by
  unfold ParameterExtent at h h'
  rw [List.append_assoc] at h'
  split at h
  · next e =>
    rw [List.head?_eq_none_iff] at e
    exact (List.append_eq_nil_iff.1 (List.append_eq_nil_iff.1 e).2).1
  · next c e =>
    rw [e] at h'
    dsimp only at h'
    split_ifs at h h' with hbrace hparen hname hone
    · exact h.eq_nil h'
    · exact h.eq_nil h'
    · exact h.eq_nil h'
    · rw [h] at h'
      exact (List.cons.inj h').2
    · rw [h] at h'
      exact h'

theorem ParameterExtent.unique {body after body' after' : List Char}
    (h : ParameterExtent body after) (h' : ParameterExtent body' after')
    (e : body ++ after = body' ++ after') : body = body' := by
  rcases List.append_eq_append_iff.1 e with ⟨more, rfl, rfl⟩ | ⟨more, rfl, rfl⟩
  · rw [h.eq_nil h', List.append_nil]
  · rw [h'.eq_nil h, List.append_nil]

/-! ## Brackets -/

/-- `depth` brackets are open in front of `body`, and one stays open up to its end at least. -/
structure Open (opener closer : Char) (depth : Nat) (body after : List Char) : Prop where
  inside : ∀ front, front <+: body → front ≠ body →
    front.count closer < front.count opener + depth
  last : body.count closer = body.count opener + depth ∨
    (after = [] ∧ body.count closer < body.count opener + depth)

/-- One character in front changes the count by what it is. -/
theorem Open.cons {opener closer x : Char} {depth depth' : Nat} {body after : List Char}
    (h : Open opener closer depth' body after) (hdepth : 1 ≤ depth)
    (hcount : depth' + [x].count closer = depth + [x].count opener) :
    Open opener closer depth (x :: body) after := by
  have hcons : ∀ (y : Char) (s : List Char), (x :: s).count y = [x].count y + s.count y := by
    intro y s
    rw [← List.singleton_append, List.count_append]
  refine ⟨fun front hfront hne => ?_, ?_⟩
  · rcases List.prefix_cons_iff.1 hfront with rfl | ⟨t, rfl, ht⟩
    · rw [List.count_nil, List.count_nil]
      omega
    · have hlt := h.inside t ht fun e => hne (by rw [e])
      rw [hcons closer, hcons opener]
      omega
  · rw [hcons closer, hcons opener]
    rcases h.last with heq | ⟨hafter, hlt⟩
    · exact .inl (by omega)
    · exact .inr ⟨hafter, by omega⟩

theorem open_closed {opener closer : Char} (hne : opener ≠ closer) {depth : Nat}
    (hdepth : 1 ≤ depth) (s : List Char) :
    Open opener closer depth (closed opener closer depth s).1
      (closed opener closer depth s).2 := by
  have hzero : ∀ {x y : Char}, x ≠ y → [x].count y = 0 := by
    intro x y h
    rw [List.count_singleton, if_neg (by simpa using h)]
  fun_induction closed opener closer depth s with
  | case1 depth =>
    refine ⟨fun front hfront hfront' => absurd (List.prefix_nil.1 hfront) hfront', .inr ⟨rfl, ?_⟩⟩
    show 0 < 0 + depth
    omega
  | case2 depth cs ih =>
    refine (ih (Nat.le_add_left 1 depth)).cons hdepth ?_
    rw [List.count_singleton_self, hzero hne]
  | case3 depth cs hlast =>
    refine ⟨fun front hfront hfront' => ?_, .inl ?_⟩
    · rcases List.prefix_cons_iff.1 hfront with rfl | ⟨t, rfl, ht⟩
      · show 0 < 0 + depth
        omega
      · rw [List.prefix_nil.1 ht] at hfront'
        exact absurd rfl hfront'
    · rw [List.count_singleton_self, hzero hne.symm]
      omega
  | case4 depth cs hlast _ ih =>
    refine (ih (by omega)).cons hdepth ?_
    rw [List.count_singleton_self, hzero hne.symm]
    omega
  | case5 depth x xs ho hc ih =>
    refine (ih hdepth).cons hdepth ?_
    rw [hzero hc, hzero ho]

theorem closesFirst_closed {opener closer : Char} (hne : opener ≠ closer) (s : List Char) :
    ClosesFirst opener closer (opener :: (closed opener closer 1 s).1)
      (closed opener closer 1 s).2 := by
  have hopen := open_closed hne (Nat.le_refl 1) s
  have hcloser : ∀ t : List Char, (opener :: t).count closer = t.count closer :=
    fun t => List.count_cons_of_ne hne
  refine ⟨List.cons_ne_nil _ _, fun front hfront hnil hproper => ?_, ?_⟩
  · rcases List.prefix_cons_iff.1 hfront with rfl | ⟨t, rfl, ht⟩
    · exact absurd rfl hnil
    · rw [hcloser, List.count_cons_self]
      exact hopen.inside t ht fun e => hproper (by rw [e])
  · rw [hcloser, List.count_cons_self]
    exact hopen.last

theorem longestName_takeWhile (s : List Char) :
    LongestName (s.takeWhile isNameChar) (s.dropWhile isNameChar) :=
  ⟨List.all_eq_true.1 List.all_takeWhile, fun _ hc => stop_of_dropWhile hc⟩

theorem parameterExtent_parameter (s : List Char) :
    ParameterExtent (parameter s).1 (parameter s).2 := by
  unfold ParameterExtent
  rw [parameter_append]
  fun_cases parameter s with
  | case1 => rfl
  | case2 cs => exact closesFirst_closed (by decide) cs
  | case3 cs => exact closesFirst_closed (by decide) cs
  | case4 c cs hb hp hn =>
    dsimp only [List.head?_cons]
    rw [if_neg hb, if_neg hp, if_pos hn]
    exact longestName_takeWhile (c :: cs)
  | case5 c cs hb hp hn hd =>
    dsimp only [List.head?_cons]
    rw [if_neg hb, if_neg hp, if_neg hn, if_pos hd]
  | case6 c cs hb hp hn hd =>
    dsimp only [List.head?_cons]
    rw [if_neg hb, if_neg hp, if_neg hn, if_neg hd]

/-! ## Tokens -/

theorem Unquoted.head?_ne {s : List Char} (h : Unquoted s) : s.head? ≠ some '$' := by
  cases s with
  | nil => exact nofun
  | cons c cs =>
    rintro ⟨rfl⟩
    exact absurd (h '$' List.mem_cons_self) (by decide)

theorem parameter_of_word (p : Position) {s : List Char} {left right : List Token} {t : Token}
    (e : (classify p (word s).1).1 = left ++ t :: right) (h : t.text.toList.head? = some '$') :
    t.kind = .var ∧
      ∃ body, t.text.toList = '$' :: body ∧ ParameterExtent body (charsOf right ++ (word s).2) := by
  rcases token_of_word p e with ⟨seg, plain, -, rfl, hcut⟩ | ⟨-, hkeyword⟩
  · generalize charsOf right ++ (word s).2 = after at hcut ⊢
    cases hcut with
    | @quoted q cs hq =>
      rw [Segment.token, toList_text_ofChars] at h
      obtain rfl : q = '$' := Option.some.inj h
      cases hq
    | @parameter cs =>
      exact ⟨rfl, (parameter cs).1, toList_text_ofChars _ _, parameterExtent_parameter cs⟩
    | @plain s =>
      rw [Segment.token, toList_text_ofChars] at h
      exact absurd h (unquoted_run s).head?_ne
  · exact absurd h (unquoted_keyword hkeyword).head?_ne

/-- A token that is cut off alone begins with the character the step begins with. -/
theorem head?_of_single {p : Position} {c : Char} {cs : List Char} {t : Token}
    (h : (next p c cs).tokens = [t]) : t.text.toList.head? = some c := by
  obtain ⟨front, hcut, hfront⟩ := cuts_next p c cs
  rw [h] at hcut
  have htext : t.text.toList = front := by
    rw [← hcut.chars, charsOf_cons, charsOf_nil, List.append_nil]
  have hne : t.text.toList ≠ [] := mt String.toList_eq_nil_iff.1 (hcut.nonempty t (by simp))
  rw [htext] at hne ⊢
  obtain ⟨d, ds, rfl⟩ := List.exists_cons_of_ne_nil hne
  rw [(List.cons.inj hfront).1]
  rfl

/-- In a text without NUL characters a token that begins with a `$` is that of a parameter, and of
all fronts of the text behind the `$` it takes the one that has the extent of a parameter. The
walk over the bytes comes to the end of such a text: each of its steps moves on, and a closer is
counted only where a bracket is open. -/
theorem tokenize_parameters {text : String} (h : '\x00' ∉ text.toList) :
    ∃ tokens, lexer.tokenize text = .ok tokens ∧ Bytewise.walk text = .ok (.ok tokens) ∧
      ∀ front t behind, tokens = front ++ t :: behind → t.text.toList.head? = some '$' →
        t.kind = .var ∧ ∃ body, t.text.toList = '$' :: body ∧
          ∀ part after, part ++ after = body ++ charsOf behind →
            (ParameterExtent part after ↔ part = body) := by
  have htokens : lexer.tokenize text = .ok (scan .start text.toList) :=
    tokenize_eq_ok_iff.2 ⟨h, rfl⟩
  refine ⟨_, htokens, by rw [Bytewise.walk_eq, htokens], ?_⟩
  intro front t behind e hdollar
  obtain ⟨before, q, c, cs, left, right, -, hnext, rfl, rfl⟩ := Reaches.exists_cut e
  have hsingle : ∀ t', (next q c cs).tokens = [t'] → c = '$' := by
    intro t' ht'
    have hhead := head?_of_single ht'
    rw [ht'] at hnext
    obtain ⟨rfl, -, -⟩ := eq_of_singleton hnext
    exact Option.some.inj (hhead.symm.trans hdollar)
  rcases next_cases q c cs with ⟨hc, e'⟩ | ⟨hc, e'⟩ | ⟨hc, e'⟩ | ⟨-, -, e'⟩
  · rw [hsingle _ (by rw [e'])] at hc
    cases hc
  · rw [hsingle _ (by rw [e'])] at hc
    cases hc
  · rw [hsingle _ (by rw [e'])] at hc
    cases hc
  · rw [e'] at hnext ⊢
    obtain ⟨hkind, body, htext, hextent⟩ := parameter_of_word q hnext hdollar
    refine ⟨hkind, body, htext, fun part after hsplit => ⟨fun hpart => ?_, ?_⟩⟩
    · rw [charsOf_append, (cuts_scan _ _).chars] at hsplit
      exact hpart.unique hextent hsplit
    · rintro rfl
      rw [charsOf_append, (cuts_scan _ _).chars] at hsplit
      rw [List.append_cancel_left hsplit]
      exact hextent

/-- A bracket inside a bracket and a letter of two bytes; then a bracket that is never closed. -/
theorem tokenize_parameters_nested :
    let text := "echo $\x7ba:-\x7bé\x7d\x7dx$(b"
    let front : List Token := [⟨.command, "echo"⟩, ⟨.whitespace, " "⟩]
    let nested : Token := ⟨.var, "$\x7ba:-\x7bé\x7d\x7d"⟩
    let between : Token := ⟨.argument, "x"⟩
    let unclosed : Token := ⟨.var, "$(b"⟩
    '\x00' ∉ text.toList ∧
      lexer.tokenize text = .ok (front ++ nested :: between :: [unclosed]) ∧
      ParameterExtent nested.text.toList.tail (charsOf [between, unclosed]) ∧
      ParameterExtent unclosed.text.toList.tail [] := by
  intro text front nested between unclosed
  have hnul : '\x00' ∉ text.toList := by decide
  have htokens : lexer.tokenize text = .ok (front ++ nested :: between :: [unclosed]) :=
    tokenize_eq_ok_iff.2 ⟨hnul, by decide +kernel⟩
  obtain ⟨tokens, hok, -, hall⟩ := tokenize_parameters hnul
  obtain rfl := Except.ok.inj (htokens.symm.trans hok)
  obtain ⟨-, body, hbody, hnested⟩ := hall front nested [between, unclosed] rfl (by decide)
  obtain ⟨-, body', hbody', hunclosed⟩ := hall (front ++ [nested, between]) unclosed [] rfl
    (by decide)
  rw [hbody, hbody']
  exact ⟨hnul, htokens, (hnested _ _ rfl).2 rfl, (hunclosed _ _ rfl).2 rfl⟩

end StepLog.Shell
