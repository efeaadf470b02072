/-
  Block scalars over lines.

  A line is inside a block scalar if an earlier line, itself outside, opens one and no line
  since has ended it. The lexer does not look back: it carries the indentation of the line
  that opened the block (`ownerBefore`). Main statement: both say the same of every line of
  every text (`inBlock_iff_carried`).
-/
import StepLog.Proofs.Yaml.Line

namespace StepLog.Yaml

/-- The number of spaces in front of a line. -/
def indentOf (raw : List Char) : Nat := (raw.takeWhile (· = ' ')).length

/-- The indentation of the line is followed by a tab. -/
def TabIndented (raw : List Char) : Prop := (raw.dropWhile (· = ' ')).head? = some '\t'

/-- A block indicator is among the tokens of the line. -/
def OpensBlock (raw : List Char) : Prop := hasIndicator (Line.ofChars raw).tokens.tokens = true

/-- The line goes on with a block that a line with indentation `owner` opened: it is blank or
indented further. -/
def Continues (owner : Nat) (raw : List Char) : Prop :=
  Text.allBlank raw = true ∨ owner < indentOf raw

/-- Line `j` is inside a block scalar: a line before it, itself outside, opens one, and every
line behind that one, up to line `j`, goes on with it. -/
def InBlock (raws : List (List Char)) (j : Nat) : Prop :=
  ∃ (i : Nat) (_ : i < j), ¬ InBlock raws i ∧ OpensBlock (raws.getD i []) ∧
    ∀ k, i < k → k ≤ j → Continues (indentOf (raws.getD i [])) (raws.getD k [])
termination_by j

/-! ## One line -/

section
variable (raw : List Char)

theorem ofChars_append : (Line.ofChars raw).indent ++ (Line.ofChars raw).text ++
    (Line.ofChars raw).ending = raw ∧ (Line.ofChars raw).ending = endingOf raw := by
  obtain ⟨body, e, happ⟩ := splitEnding_eq raw
  unfold Line.ofChars
  rw [e]
  dsimp only
  rw [List.takeWhile_append_dropWhile]
  exact ⟨happ, rfl⟩

theorem indent_ofChars : (Line.ofChars raw).indent = raw.takeWhile (· = ' ') := by
  obtain ⟨body, e, happ⟩ := splitEnding_eq raw
  have hending : (endingOf raw).takeWhile (· = ' ') = [] := by
    cases hcs : endingOf raw with
    | nil => rfl
    | cons c cs =>
      have hc : c ∈ endingOf raw := by rw [hcs]; exact List.mem_cons_self
      rcases mem_endingOf hc with rfl | rfl <;> rfl
  unfold Line.ofChars
  rw [e]
  dsimp only
  conv => rhs; rw [← happ]
  rw [List.takeWhile_append, hending]
  split
  · next h => rw [List.append_nil, (List.takeWhile_prefix _).eq_of_length h]
  · rfl

theorem text_ofChars_head? :
    (Line.ofChars raw).text.head? = some '\t' ↔ TabIndented raw := by
  obtain ⟨happ, hend⟩ := ofChars_append raw
  have hdrop : raw.dropWhile (· = ' ') = (Line.ofChars raw).text ++ endingOf raw := by
    have h := List.takeWhile_append_dropWhile (p := (· = ' ')) (l := raw)
    rw [← indent_ofChars] at h
    rw [hend, List.append_assoc] at happ
    exact List.append_cancel_left (h.trans happ.symm)
  unfold TabIndented
  rw [hdrop]
  cases (Line.ofChars raw).text with
  | cons c cs => rfl
  | nil =>
    refine ⟨fun h => (by cases h), fun h => ?_⟩
    have hc : '\t' ∈ endingOf raw := List.mem_of_head? h
    rcases mem_endingOf hc with hc | hc <;> cases hc

theorem inBlock_ofChars (owner : Nat) :
    (Line.ofChars raw).inBlock owner = true ↔ Continues owner raw := by
  obtain ⟨happ, hend⟩ := ofChars_append raw
  have hblank : Text.allBlank raw =
      Text.allBlank ((Line.ofChars raw).indent ++ (Line.ofChars raw).text) := by
    have hending : (endingOf raw).all Text.isBlank = true := by
      rw [List.all_eq_true]
      intro c hc
      rcases mem_endingOf hc with rfl | rfl <;> rfl
    unfold Text.allBlank
    conv => lhs; rw [← happ, hend, List.all_append, hending, Bool.and_true]
  unfold Line.inBlock Continues indentOf
  rw [hblank, indent_ofChars, Bool.or_eq_true, decide_eq_true_iff]

end

/-! ## The owner of the open block -/

/-- The owner of the open block behind a line. -/
def nextOwner (owner : Option Nat) (raw : List Char) : Option Nat :=
  let line := Line.ofChars raw
  if owner.any line.inBlock then owner
  else if line.tokens.opensBlock then some line.indent.length else none

/-- The owner of the open block in front of line `j`. -/
def ownerBefore (owner : Option Nat) (raws : List (List Char)) (j : Nat) : Option Nat :=
  (raws.take j).foldl nextOwner owner

/-- The line goes on with the open block. -/
def Carried (owner : Option Nat) (raw : List Char) : Prop :=
  ∃ n, owner = some n ∧ Continues n raw

theorem any_inBlock (owner : Option Nat) (raw : List Char) :
    owner.any (Line.ofChars raw).inBlock = true ↔ Carried owner raw := by
  rw [Option.any_eq_true]
  unfold Carried
  simp only [inBlock_ofChars]

theorem nextOwner_of_carried {owner : Option Nat} {raw : List Char} (h : Carried owner raw) :
    nextOwner owner raw = owner := by
  unfold nextOwner
  rw [if_pos ((any_inBlock owner raw).2 h)]

/-- A line outside every block leaves its own block open, or none. -/
theorem nextOwner_eq_some {owner : Option Nat} {raw : List Char} (h : ¬ Carried owner raw)
    (n : Nat) : nextOwner owner raw = some n ↔ OpensBlock raw ∧ n = indentOf raw := by
  unfold nextOwner OpensBlock indentOf
  dsimp only
  rw [if_neg (mt (any_inBlock owner raw).1 h), opensBlock_tokens, indent_ofChars]
  split
  · next ho => simp [ho, eq_comm]
  · next ho => simp [ho]

theorem ownerBefore_succ (owner : Option Nat) {raws : List (List Char)} {j : Nat}
    (h : j < raws.length) :
    ownerBefore owner raws (j + 1) = nextOwner (ownerBefore owner raws j) (raws.getD j []) := by
  unfold ownerBefore
  rw [List.take_succ_eq_append_getElem h, List.foldl_append, List.getD_eq_getElem?_getD,
    List.getElem?_eq_getElem h]
  rfl

/-- The open block in front of line `j` belongs to the line before it that opened one outside
every other, if all lines since go on with it. The induction is on the lines gone by. -/
theorem ownerBefore_eq_some {raws : List (List Char)} {j : Nat} (h : j ≤ raws.length) (n : Nat) :
    ownerBefore none raws j = some n ↔
      ∃ i < j, ¬ Carried (ownerBefore none raws i) (raws.getD i []) ∧
        OpensBlock (raws.getD i []) ∧ n = indentOf (raws.getD i []) ∧
        ∀ k, i < k → k < j → Continues n (raws.getD k []) := by
  induction j generalizing n with
  | zero => simp [ownerBefore]
  | succ j ih =>
    have ih := ih (by omega)
    rw [ownerBefore_succ none (by omega)]
    by_cases hc : Carried (ownerBefore none raws j) (raws.getD j [])
    · rw [nextOwner_of_carried hc, ih]
      obtain ⟨m, hm, hcont⟩ := hc
      constructor
      · rintro ⟨i, hi, hout, hopen, hn, hall⟩
        have hmn : ownerBefore none raws j = some n := (ih n).2 ⟨i, hi, hout, hopen, hn, hall⟩
        rw [hm] at hmn
        cases hmn
        refine ⟨i, by omega, hout, hopen, hn, fun k hik hkj => ?_⟩
        by_cases hk : k = j
        · rw [hk]
          exact hcont
        · exact hall k hik (by omega)
      · rintro ⟨i, hi, hout, hopen, hn, hall⟩
        have hij : i ≠ j := by
          rintro rfl
          exact hout ⟨m, hm, hcont⟩
        exact ⟨i, by omega, hout, hopen, hn, fun k hik hkj => hall k hik (by omega)⟩
    · rw [nextOwner_eq_some hc]
      constructor
      · rintro ⟨hopen, hn⟩
        exact ⟨j, by omega, hc, hopen, hn, fun k hjk hkj => by omega⟩
      · rintro ⟨i, hi, hout, hopen, hn, hall⟩
        -- a block opened before line `j` would take line `j` in
        have hij : i = j := by
          refine Classical.byContradiction fun hne => ?_
          have hown : ownerBefore none raws j = some n :=
            (ih n).2 ⟨i, by omega, hout, hopen, hn, fun k hik hkj => hall k hik (by omega)⟩
          exact hc ⟨n, hown, hall j (by omega) (by omega)⟩
        subst hij
        exact ⟨hopen, hn⟩

/-- A line is inside a block scalar exactly if the lexer takes it into the block it carries. -/
theorem inBlock_iff_carried {raws : List (List Char)} {j : Nat} (h : j < raws.length) :
    InBlock raws j ↔ Carried (ownerBefore none raws j) (raws.getD j []) := by
  induction j using Nat.strongRecOn with
  | ind j ih =>
    rw [InBlock]
    unfold Carried
    constructor
    · rintro ⟨i, hi, hout, hopen, hall⟩
      rw [ih i hi (by omega)] at hout
      refine ⟨_, (ownerBefore_eq_some (by omega) _).2 ⟨i, hi, hout, hopen, rfl, ?_⟩, ?_⟩
      · exact fun k hik hkj => hall k hik (by omega)
      · exact hall j hi (Nat.le_refl j)
    · rintro ⟨n, hown, hcont⟩
      obtain ⟨i, hi, hout, hopen, rfl, hall⟩ := (ownerBefore_eq_some (by omega) _).1 hown
      refine ⟨i, hi, mt (ih i hi (by omega)).1 hout, hopen, fun k hik hkj => ?_⟩
      by_cases hk : k = j
      · rw [hk]
        exact hcont
      · exact hall k hik (by omega)

end StepLog.Yaml
