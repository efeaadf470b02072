/-
  The key/value lexer loses nothing, line by line.

  One step gives the tokens of one line and the owner for the next (`lineTokens_cons`), so a
  text without a rejected line becomes one group of tokens for each line, and any other fails
  at its first rejected line. Main statement: the lexer refuses a NUL character and a tab
  behind the indentation of a line outside every block scalar, nothing else, and of any other
  text the groups are the lines (`tokenize_by_lines`).
-/
import Mathlib.Data.List.Forall2
import Mathlib.Data.Nat.Find
import StepLog.Proofs.Text.Lines
import StepLog.Proofs.Yaml.Blocks

namespace StepLog.Yaml

/-! ## Lines and groups -/

/-- The tokens of one line. They cut the line, its ending is one token of its own, and no
other token has a line feed. -/
structure LineGroup (raw : List Char) (group : List Token) : Prop where
  cuts : Cuts group raw
  ending : ∃ body, group = body ++ Token.of? .whitespace (endingOf raw) ∧
    ∀ t ∈ body, '\n' ∉ t.text.toList

theorem endingOf_ne_nil {front : List Char} : endingOf (front ++ ['\n']) ≠ [] := by
  unfold endingOf
  rw [if_pos (List.suffix_append front ['\n'])]
  split <;> exact List.cons_ne_nil _ _

/-- In front of its ending a line has no line feed. -/
theorem not_mem_body {raw body : List Char} (h : '\n' ∉ raw.dropLast)
    (e : body ++ endingOf raw = raw) : '\n' ∉ body := by
  intro hmem
  by_cases hend : endingOf raw = []
  · rw [hend, List.append_nil] at e
    subst e
    -- the line feed is then the last character, which makes it an ending
    have hne : body ≠ [] := List.ne_nil_of_mem hmem
    have hsplit := List.dropLast_append_getLast hne
    rw [← hsplit] at hmem
    rcases List.mem_append.1 hmem with hmem | hmem
    · exact h hmem
    · rw [← List.mem_singleton.1 hmem] at hsplit
      rw [← hsplit] at hend
      exact endingOf_ne_nil hend
  · apply h
    rw [← e, List.dropLast_append_of_ne_nil hend]
    exact List.mem_append_left _ hmem

/-- The tokens of a line with the owner of the open block in front of it. -/
def groupOf (owner : Option Nat) (raw : List Char) : List Token :=
  let line := Line.ofChars raw
  (if owner.any line.inBlock then Token.of? .literal (line.indent ++ line.text)
    else line.tokens.tokens) ++ Token.of? .whitespace line.ending

theorem lineGroup_groupOf (owner : Option Nat) {raw : List Char} (h : '\n' ∉ raw.dropLast) :
    LineGroup raw (groupOf owner raw) := by
  obtain ⟨happ, hend⟩ := ofChars_append raw
  have hbody : Cuts (if owner.any (Line.ofChars raw).inBlock then
      Token.of? .literal ((Line.ofChars raw).indent ++ (Line.ofChars raw).text)
      else (Line.ofChars raw).tokens.tokens)
      ((Line.ofChars raw).indent ++ (Line.ofChars raw).text) := by
    split
    · exact .of? _ _
    · exact cuts_tokens _
  refine ⟨?_, _, by rw [← hend]; rfl, fun t ht hnl => ?_⟩
  · have hcut := hbody.append (Cuts.of? .whitespace (Line.ofChars raw).ending)
    rwa [happ] at hcut
  · rw [hend] at happ
    exact not_mem_body h happ (hbody.mem ht hnl)

/-! ## Line by line -/

/-- Line `j` is outside every block scalar and a tab follows its indentation, if `owner` is
the owner of the open block in front of the first line. -/
def FaultyFrom (owner : Option Nat) (raws : List (List Char)) (j : Nat) : Prop :=
  j < raws.length ∧ ¬ Carried (ownerBefore owner raws j) (raws.getD j []) ∧
    TabIndented (raws.getD j [])

theorem faultyFrom_zero (owner : Option Nat) (raw : List Char) (raws : List (List Char)) :
    FaultyFrom owner (raw :: raws) 0 ↔ ¬ Carried owner raw ∧ TabIndented raw := by
  simp [FaultyFrom, ownerBefore]

theorem faultyFrom_succ (owner : Option Nat) (raw : List Char) (raws : List (List Char))
    (j : Nat) : FaultyFrom owner (raw :: raws) (j + 1) ↔
      FaultyFrom (nextOwner owner raw) raws j := by
  simp [FaultyFrom, ownerBefore]

/-- One line: its tokens go in front of those of the lines behind it. -/
theorem lineTokens_cons (number : Nat) {owner : Option Nat} {raw : List Char}
    {raws : List (List Char)} (h : ¬ FaultyFrom owner (raw :: raws) 0) :
    lineTokens number owner (raw :: raws) =
      (lineTokens (number + 1) (nextOwner owner raw) raws).map (groupOf owner raw ++ ·) := by
  rw [faultyFrom_zero, not_and] at h
  unfold nextOwner groupOf
  rw [lineTokens]
  dsimp only
  by_cases hc : owner.any (Line.ofChars raw).inBlock = true
  · rw [if_pos hc, if_pos hc, if_pos hc]
  · have htab : ¬ (Line.ofChars raw).text.head? = some '\t' := by
      rw [text_ofChars_head?]
      exact h (mt (any_inBlock owner raw).2 hc)
    rw [if_neg hc, if_neg hc, if_neg hc, if_neg htab]

theorem lineTokens_faulty (number : Nat) {owner : Option Nat} {raw : List Char}
    {raws : List (List Char)} (h : FaultyFrom owner (raw :: raws) 0) :
    lineTokens number owner (raw :: raws) = .error ⟨"yaml", .tabIndent number⟩ := by
  obtain ⟨hout, htab⟩ := (faultyFrom_zero owner raw raws).1 h
  rw [lineTokens]
  dsimp only
  rw [if_neg (mt (any_inBlock owner raw).1 hout), if_pos ((text_ofChars_head? raw).2 htab)]

/-- The tokens of lines, line by line, if `owner` is the owner of the open block in front of them. -/
def groupsFrom (owner : Option Nat) : List (List Char) → List (List Token)
  | [] => []
  | raw :: raws => groupOf owner raw :: groupsFrom (nextOwner owner raw) raws

/-- Without a faulty line every line gets its group. -/
theorem lineTokens_ok (number : Nat) {owner : Option Nat} {raws : List (List Char)}
    (h : ∀ j, ¬ FaultyFrom owner raws j) :
    lineTokens number owner raws = .ok (groupsFrom owner raws).flatten := by
  induction raws generalizing number owner with
  | nil => rfl
  | cons raw raws ih =>
    have hrest := ih (number + 1) fun j => mt (faultyFrom_succ owner raw raws j).2 (h (j + 1))
    rw [lineTokens_cons number (h 0), hrest]
    rfl

theorem lineGroup_groupsFrom (owner : Option Nat) {raws : List (List Char)}
    (h : ∀ raw ∈ raws, '\n' ∉ raw.dropLast) :
    List.Forall₂ LineGroup raws (groupsFrom owner raws) := by
  induction raws generalizing owner with
  | nil => exact .nil
  | cons raw raws ih =>
    exact .cons (lineGroup_groupOf owner (h raw List.mem_cons_self))
      (ih _ fun raw' h' => h raw' (List.mem_cons_of_mem _ h'))

/-- With a faulty line the first one is named. -/
theorem lineTokens_error (number : Nat) {owner : Option Nat} {raws : List (List Char)} {j : Nat}
    (h : FaultyFrom owner raws j) (hfirst : ∀ i < j, ¬ FaultyFrom owner raws i) :
    lineTokens number owner raws = .error ⟨"yaml", .tabIndent (number + j)⟩ := by
  induction raws generalizing number owner j with
  | nil => exact absurd h.1 (Nat.not_lt_zero j)
  | cons raw raws ih =>
    cases j with
    | zero => exact lineTokens_faulty number h
    | succ j =>
      rw [faultyFrom_succ] at h
      rw [lineTokens_cons number (hfirst 0 (by omega)),
        ih (number + 1) h fun i hi => mt (faultyFrom_succ owner raw raws i).2
          (hfirst (i + 1) (by omega)),
        show number + 1 + j = number + (j + 1) by omega]
      rfl

/-! ## The whole text -/

/-- Line `j` is not inside a block scalar, and a tab is the first character behind its
leading spaces. -/
def TabFault (raws : List (List Char)) (j : Nat) : Prop :=
  j < raws.length ∧ ¬ InBlock raws j ∧ TabIndented (raws.getD j [])

/-- Line `j` is the first with a tab fault. -/
def FirstTabFault (raws : List (List Char)) (j : Nat) : Prop :=
  TabFault raws j ∧ ∀ i < j, ¬ TabFault raws i

theorem tabFault_iff {raws : List (List Char)} (j : Nat) :
    TabFault raws j ↔ FaultyFrom none raws j := by
  unfold TabFault FaultyFrom
  exact and_congr_right fun h => and_congr_left fun _ => not_congr (inBlock_iff_carried h)

theorem exists_firstTabFault {raws : List (List Char)} (h : ∃ j, TabFault raws j) :
    ∃ j, FirstTabFault raws j := by
  classical
  exact ⟨Nat.find h, Nat.find_spec h, fun i hi => Nat.find_min h hi⟩

theorem cuts_groups {raws : List (List Char)} {groups : List (List Token)}
    (h : List.Forall₂ LineGroup raws groups) : Cuts groups.flatten raws.flatten := by
  induction h with
  | nil => exact .nil
  | cons hgroup _ ih => exact hgroup.cuts.append ih

theorem tokenize_of_tabFault {text : String} (h : '\x00' ∉ text.toList) {j : Nat}
    (hj : FirstTabFault (Text.cutLines text.toList) j) :
    lexer.tokenize text = .error ⟨"yaml", .tabIndent (j + 1)⟩ := by
  obtain ⟨hfault, hfirst⟩ := hj
  have e := lineTokens_error 1 ((tabFault_iff j).1 hfault)
    fun i hi => mt (tabFault_iff i).2 (hfirst i hi)
  rw [Nat.add_comm] at e
  exact (tokenize_of_no_nul _ _ h).trans e

theorem tokenize_eq_groups {text : String} (h : '\x00' ∉ text.toList)
    (hno : ¬ ∃ j, TabFault (Text.cutLines text.toList) j) :
    lexer.tokenize text = .ok (groupsFrom none (Text.cutLines text.toList)).flatten :=
  (tokenize_of_no_nul _ _ h).trans
    (lineTokens_ok 1 fun j hj => hno ⟨j, (tabFault_iff j).2 hj⟩)

theorem lineGroup_cutLines (owner : Option Nat) (s : List Char) :
    List.Forall₂ LineGroup (Text.cutLines s) (groupsFrom owner (Text.cutLines s)) :=
  lineGroup_groupsFrom owner fun _ => Text.not_mem_dropLast_of_mem_cutLines

theorem tokenize_of_no_fault {text : String} (h : '\x00' ∉ text.toList)
    (hno : ¬ ∃ j, TabFault (Text.cutLines text.toList) j) :
    ∃ groups, lexer.tokenize text = .ok groups.flatten ∧
      List.Forall₂ LineGroup (Text.cutLines text.toList) groups :=
  ⟨_, tokenize_eq_groups h hno, lineGroup_cutLines none _⟩

/-- What the lexer accepts has no NUL character and no tab fault, and its tokens are the groups of
its lines. -/
theorem eq_groups_of_tokenize {text : String} {tokens : List Token}
    (h : lexer.tokenize text = .ok tokens) :
    '\x00' ∉ text.toList ∧ (¬ ∃ j, TabFault (Text.cutLines text.toList) j) ∧
      tokens = (groupsFrom none (Text.cutLines text.toList)).flatten := by
  by_cases hnul : '\x00' ∈ text.toList
  · obtain ⟨offset, hn⟩ := exists_firstNul hnul
    have e : lexer.tokenize text = .error ⟨"yaml", .nul offset⟩ := tokenize_of_firstNul _ _ hn
    rw [e] at h
    cases h
  · by_cases hj : ∃ j, TabFault (Text.cutLines text.toList) j
    · obtain ⟨j, hj⟩ := exists_firstTabFault hj
      rw [tokenize_of_tabFault hnul hj] at h
      cases h
    · rw [tokenize_eq_groups hnul hj] at h
      cases h
      exact ⟨hnul, hj, rfl⟩

theorem groups_of_tokenize {text : String} {tokens : List Token}
    (h : lexer.tokenize text = .ok tokens) :
    '\x00' ∉ text.toList ∧ ∃ groups, tokens = groups.flatten ∧
      List.Forall₂ LineGroup (Text.cutLines text.toList) groups := by
  obtain ⟨hnul, -, htokens⟩ := eq_groups_of_tokenize h
  exact ⟨hnul, _, htokens, lineGroup_cutLines none _⟩

/-- What the lexer accepts it cuts. -/
theorem cuts_tokenize {text : String} {tokens : List Token}
    (h : lexer.tokenize text = .ok tokens) : Cuts tokens text.toList := by
  obtain ⟨-, groups, rfl, hgroups⟩ := groups_of_tokenize h
  have hcut := cuts_groups hgroups
  rwa [Text.flatten_cutLines] at hcut

/-- The lexer refuses a text with a NUL character and names the first one. It refuses any
other text exactly if a line outside every block scalar has a tab behind its leading spaces,
and names the first such line. The tokens of all other texts come in groups, one for each
line, that are not empty and give the text back. -/
theorem tokenize_by_lines (text : String) :
    ('\x00' ∈ text.toList → ∃ offset, FirstNul text offset ∧
      lexer.tokenize text = .error ⟨"yaml", .nul offset⟩) ∧
    ('\x00' ∉ text.toList → ∀ fault, lexer.tokenize text = .error fault ↔
      ∃ j, FirstTabFault (Text.cutLines text.toList) j ∧
        fault = ⟨"yaml", .tabIndent (j + 1)⟩ ∧ fault.message =
          "yaml lexer failed: tab character in indentation on line " ++ toString (j + 1)) ∧
    ('\x00' ∉ text.toList → (¬ ∃ j, TabFault (Text.cutLines text.toList) j) →
      ∃ groups, lexer.tokenize text = .ok groups.flatten ∧
        List.Forall₂ LineGroup (Text.cutLines text.toList) groups ∧
        (∀ t ∈ groups.flatten, t.text ≠ "") ∧
        String.join (groups.flatten.map Token.text) = text) := by
  refine ⟨fun h => ?_, fun h fault => ?_, fun h hno => ?_⟩
  · obtain ⟨offset, hn⟩ := exists_firstNul h
    exact ⟨offset, hn, tokenize_of_firstNul _ _ hn⟩
  · by_cases hj : ∃ j, TabFault (Text.cutLines text.toList) j
    · constructor
      · intro e
        obtain ⟨j, hj⟩ := exists_firstTabFault hj
        rw [tokenize_of_tabFault h hj] at e
        cases e
        exact ⟨j, hj, rfl, rfl⟩
      · rintro ⟨j, hj, rfl, -⟩
        exact tokenize_of_tabFault h hj
    · constructor
      · intro e
        obtain ⟨groups, e', -⟩ := tokenize_of_no_fault h hj
        rw [e'] at e
        cases e
      · rintro ⟨j, hj', -⟩
        exact absurd ⟨j, hj'.1⟩ hj
  · obtain ⟨groups, e, hgroups⟩ := tokenize_of_no_fault h hno
    have hcut := cuts_tokenize e
    exact ⟨groups, e, hgroups, hcut.nonempty, hcut.join⟩

/-- A tab inside a block scalar is text; behind the block it is a fault. -/
example : lexer.tokenize "a: |\n \tb\n\tc\n" = .error ⟨"yaml", .tabIndent 3⟩ := by cbv

end StepLog.Yaml
