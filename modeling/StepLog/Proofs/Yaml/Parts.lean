/-
  Texts in parts.

  What the lexer makes of some lines depends on the lines in front of them through the open block
  only (`lineTokens_append`). So a line that no open block takes in has the tokens that it has by
  itself (`lineTokens_of_ok`), and where every line is indented by two or blank no block takes in
  a line that is indented by two (`OwnedInside`). Lines without a tab at their front are accepted
  whatever stands in front of them, and so is a block with its header (`Accepted`).
-/
import StepLog.Proofs.Yaml.LiteralBlocks

namespace StepLog.Yaml

/-! ## Blocks that end at an entry -/

/-- The open block, if there is one, is owned by a line that is indented by two or more. -/
def OwnedInside (owner : Option Nat) : Prop := ∀ n, owner = some n → 2 ≤ n

/-- A blank line opens no block. -/
theorem not_opensBlock_of_blank {raw : List Char} (h : Text.allBlank raw = true) :
    ¬ OpensBlock raw := by
  intro hopens
  obtain ⟨t, ht, hindicator⟩ := List.any_eq_true.1 hopens
  rw [Bool.and_eq_true] at hindicator
  obtain ⟨c, cs, hchars⟩ : ∃ c cs, t.text.toList = c :: cs := by
    cases hchars : t.text.toList with
    | nil =>
      rw [hchars] at hindicator
      cases hindicator.2
    | cons c cs => exact ⟨c, cs, rfl⟩
  have hc : c ∈ raw := by
    have hmem := (cuts_tokens (Line.ofChars raw)).mem ht (hchars ▸ List.mem_cons_self)
    rw [← (ofChars_append raw).1]
    exact List.mem_append_left _ hmem
  have hblank := List.all_eq_true.1 h c hc
  rw [hchars] at hindicator
  unfold isBlockIndicator at hindicator
  rw [Bool.and_eq_true, Bool.or_eq_true] at hindicator
  rcases hindicator.2.1 with hbar | hfold
  · rw [of_decide_eq_true hbar] at hblank
    cases hblank
  · rw [of_decide_eq_true hfold] at hblank
    cases hblank

theorem ownedInside_nextOwner {owner : Option Nat} {raw : List Char} (h : OwnedInside owner)
    (hraw : 2 ≤ indentOf raw ∨ Text.allBlank raw = true) : OwnedInside (nextOwner owner raw) := by
  by_cases hcarried : Carried owner raw
  · rw [nextOwner_of_carried hcarried]
    exact h
  · intro n hn
    obtain ⟨hopens, rfl⟩ := (nextOwner_eq_some hcarried n).1 hn
    rcases hraw with hindent | hblank
    · exact hindent
    · exact absurd hopens (not_opensBlock_of_blank hblank)

theorem ownedInside_foldl {owner : Option Nat} {raws : List (List Char)} (h : OwnedInside owner)
    (hraws : ∀ raw ∈ raws, 2 ≤ indentOf raw ∨ Text.allBlank raw = true) :
    OwnedInside (raws.foldl nextOwner owner) := by
  induction raws generalizing owner with
  | nil => exact h
  | cons raw raws ih =>
    exact ih (ownedInside_nextOwner h (hraws raw List.mem_cons_self))
      fun raw' h' => hraws raw' (List.mem_cons_of_mem _ h')

/-- The tokens of lines come in two parts where the lines do. -/
theorem lineTokens_append {number : Nat} {owner : Option Nat} {front back : List (List Char)}
    {tokens : List Token} (hfront : ∀ raw ∈ front, '\n' ∉ raw.dropLast)
    (h : lineTokens number owner (front ++ back) = .ok tokens) :
    ∃ head tail, tokens = head ++ tail ∧ charsOf head = front.flatten ∧
      lineTokens (number + front.length) (front.foldl nextOwner owner) back = .ok tail := by
  induction front generalizing number owner tokens with
  | nil => exact ⟨[], tokens, rfl, rfl, h⟩
  | cons raw front ih =>
    by_cases hfault : FaultyFrom owner (raw :: (front ++ back)) 0
    · rw [List.cons_append, lineTokens_faulty number hfault] at h
      cases h
    · rw [List.cons_append, lineTokens_cons number hfault] at h
      cases hrest : lineTokens (number + 1) (nextOwner owner raw) (front ++ back) with
      | error fault =>
        rw [hrest] at h
        cases h
      | ok rest =>
        rw [hrest] at h
        cases h
        obtain ⟨head, tail, rfl, hhead, htail⟩ :=
          ih (fun raw' h' => hfront raw' (List.mem_cons_of_mem _ h')) hrest
        refine ⟨groupOf owner raw ++ head, tail, (List.append_assoc ..).symm, ?_, ?_⟩
        · have hgroup := (lineGroup_groupOf owner (hfront raw List.mem_cons_self)).cuts.chars
          rw [charsOf_append, hgroup, hhead, List.flatten_cons]
        · rw [List.length_cons, Nat.add_comm front.length 1, ← Nat.add_assoc]
          exact htail

/-- A line that no block takes in has the tokens that it has by itself. -/
theorem lineTokens_of_ok {number : Nat} {owner : Option Nat} {raw : List Char}
    {raws : List (List Char)} {tokens : List Token} (hout : ¬ Carried owner raw)
    (h : lineTokens number owner (raw :: raws) = .ok tokens) :
    ∃ tail, tokens = groupOf none raw ++ tail := by
  rw [lineTokens_of_not_carried number hout] at h
  by_cases hfault : FaultyFrom none (raw :: raws) 0
  · rw [lineTokens_faulty number hfault] at h
    cases h
  · rw [lineTokens_cons number hfault] at h
    cases hrest : lineTokens (number + 1) (nextOwner none raw) raws with
    | error fault =>
      rw [hrest] at h
      cases h
    | ok rest =>
      rw [hrest] at h
      cases h
      exact ⟨rest, rfl⟩

/-! ## Lines without a fault -/

/-- The lexer accepts the lines, whatever stands in front of them. -/
def Accepted (raws : List (List Char)) : Prop :=
  ∀ number owner, ∃ tokens, lineTokens number owner raws = .ok tokens

theorem accepted_nil : Accepted [] := fun _ _ => ⟨[], rfl⟩

theorem Accepted.cons {raw : List Char} {raws : List (List Char)} (h : Accepted raws)
    (hraw : ¬ TabIndented raw) : Accepted (raw :: raws) := by
  intro number owner
  have hfault : ¬ FaultyFrom owner (raw :: raws) 0 := by
    rw [faultyFrom_zero]
    exact fun hf => hraw hf.2
  obtain ⟨tokens, htokens⟩ := h (number + 1) (nextOwner owner raw)
  rw [lineTokens_cons number hfault, htokens]
  exact ⟨_, rfl⟩

theorem Accepted.append {raws more : List (List Char)} (h : Accepted more)
    (hraws : ∀ raw ∈ raws, ¬ TabIndented raw) : Accepted (raws ++ more) := by
  induction raws with
  | nil => exact h
  | cons raw raws ih =>
    have hraws' : ∀ raw' ∈ raws, ¬ TabIndented raw' :=
      fun raw' h' => hraws raw' (List.mem_cons_of_mem _ h')
    exact (ih hraws').cons (hraws raw List.mem_cons_self)

/-- A line that opens a block, or goes on with one, keeps from faults whatever is indented
further. -/
theorem Accepted.block {raw : List Char} {raws more : List (List Char)} (h : Accepted more)
    (hraw : ¬ TabIndented raw) (hindent : indentOf raw = 2) (hvisible : Text.allBlank raw = false)
    (hopens : OpensBlock raw) (hraws : ∀ line ∈ raws, Continues 2 line) :
    Accepted (raw :: raws ++ more) := by
  intro number owner
  have hfault : ¬ FaultyFrom owner (raw :: (raws ++ more)) 0 := by
    rw [faultyFrom_zero]
    exact fun hf => hraw hf.2
  obtain ⟨n, hnext, hn⟩ : ∃ n, nextOwner owner raw = some n ∧ n ≤ 2 := by
    by_cases hcarried : Carried owner raw
    · rw [nextOwner_of_carried hcarried]
      obtain ⟨n, hn, hblank | hless⟩ := hcarried
      · rw [hvisible] at hblank
        cases hblank
      · exact ⟨n, hn, by omega⟩
    · exact ⟨2, (nextOwner_eq_some hcarried 2).2 ⟨hopens, hindent.symm⟩, Nat.le_refl 2⟩
  have hcontinues : ∀ line ∈ raws, Continues n line :=
    fun line hline => (hraws line hline).imp_right fun hless => Nat.lt_of_le_of_lt hn hless
  obtain ⟨tokens, htokens⟩ := h (number + 1 + raws.length) (some n)
  rw [List.cons_append, lineTokens_cons number hfault, hnext, lineTokens_carried _ hcontinues,
    htokens]
  exact ⟨_, rfl⟩

theorem not_tabIndented_of_not_mem {raw : List Char} (h : '\t' ∉ raw) : ¬ TabIndented raw := by
  intro htab
  exact h ((List.dropWhile_suffix _).subset (List.mem_of_head? htab))

end StepLog.Yaml
