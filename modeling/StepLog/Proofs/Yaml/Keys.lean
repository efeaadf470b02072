/-
  Lines of keys.

  Main statement: on the line of an entry the key is found exactly if its quotes are closed
  (`recognized_keyLine_iff`). Found in front of the header of a literal block it opens the block
  (`opensBlock_keyLine`).
-/
import StepLog.Proofs.Yaml.LiteralBlocks
import StepLog.Proofs.Yaml.Spelling

namespace StepLog.Yaml

open Params (blockHeader)

theorem unbroken_keyLine {key header : List Char} (hkey : Unbroken key)
    (hheader : Unbroken header) : Unbroken (keyLine key header) := by
  have hmargin : Unbroken "  ".toList := unbroken_of_all rfl
  have hcolon : Unbroken ": ".toList := unbroken_of_all rfl
  unfold keyLine
  rw [unbroken_append, unbroken_append, unbroken_append]
  exact ⟨⟨⟨hmargin, hkey⟩, hcolon⟩, hheader⟩

/-- A value holds no key. -/
theorem kind_ne_key_of_mem_valueTokens {text : List Char} {t : Token}
    (h : t ∈ (valueTokens text).tokens) : t.kind ≠ .key := by
  intro hkey
  have hkind := kindsIn_valueTokens text t h
  rw [hkey] at hkind
  revert hkind
  decide

section
variable {key : List Char} (hkey : KeyShaped key) (header : List Char)
include hkey

/-- Behind its indentation the line goes on with no space, no tab, no comment and no dash. -/
theorem exists_keyText : ∃ c cs, key ++ ": ".toList ++ header = c :: cs ∧
    c ∉ [' ', '\t', '#'] ∧ ¬ (c = '-' ∧ (cs = [] ∨ cs.head? = some ' ')) := by
  cases key with
  | nil => exact ⟨':', ' ' :: header, rfl, by decide, fun h => absurd h.1 (by decide)⟩
  | cons c cs =>
    obtain ⟨hc, hdash⟩ := hkey.start c cs rfl
    refine ⟨c, cs ++ ": ".toList ++ header, rfl, ?_, ?_⟩
    · intro hmem
      simp only [List.mem_cons, List.not_mem_nil, or_false] at hmem hc
      tauto
    · rintro ⟨hc, hnil | hspace⟩
      · simp at hnil
      · refine hdash ⟨hc, ?_⟩
        cases cs with
        | nil => cases hspace
        | cons d ds => exact hspace

theorem ofChars_entryLine (hline : Unbroken (keyLine key header)) :
    Line.ofChars (keyLine key header ++ ['\n']) =
      ⟨"  ".toList, key ++ ": ".toList ++ header, ['\n']⟩ := by
  have hreturn : (keyLine key header).getLast? ≠ some '\r' := by
    intro h
    exact (hline _ (List.mem_of_getLast? h)).2 rfl
  have hdrop : Text.dropEndIf '\r' (keyLine key header) = keyLine key header := if_neg hreturn
  have hfront : keyLine key header = ' ' :: ' ' :: (key ++ ": ".toList ++ header) := by
    unfold keyLine
    simp only [List.append_assoc]
    rfl
  obtain ⟨c, cs, htext, hc, -⟩ := exists_keyText hkey header
  have hspace : c ≠ ' ' := by
    rintro rfl
    exact hc List.mem_cons_self
  unfold Line.ofChars
  rw [splitEnding_lineFeed, hdrop, if_neg hreturn, hfront, htext]
  simp [hspace]

/-- The line is no marker of a document and has no dashes. -/
theorem tokens_entryLine (ending : List Char) :
    (Line.mk "  ".toList (key ++ ": ".toList ++ header) ending).tokens =
      ⟨⟨.whitespace, "  "⟩ :: (entryTokens (key ++ ": ".toList ++ header)).tokens,
        (entryTokens (key ++ ": ".toList ++ header)).opensBlock⟩ := by
  have hcolon : ':' ∈ key ++ ": ".toList ++ header := by simp
  have hmarker : ¬ (key ++ ": ".toList ++ header = "---".toList ∨
      key ++ ": ".toList ++ header = "...".toList) := by
    rintro (h | h)
    · rw [h] at hcolon
      revert hcolon
      decide
    · rw [h] at hcolon
      revert hcolon
      decide
  obtain ⟨c, cs, htext, -, hdash⟩ := exists_keyText hkey header
  unfold Line.tokens
  dsimp only
  rw [if_neg hmarker, htext]
  unfold dashes
  rw [if_neg hdash]
  rfl

/-- The key is looked for from the first character of the text on. -/
theorem key?_keyText (hne : key ≠ []) :
    key? (key ++ ": ".toList ++ header) = keyFrom none none (key ++ ": ".toList ++ header) := by
  cases key with
  | nil => exact absurd rfl hne
  | cons c cs =>
    have hc := (hkey.start c cs rfl).1
    unfold key?
    refine if_neg ?_
    rintro (rfl | rfl | rfl | rfl) <;> exact hc (by decide)

/-- It is found there if its quotes are closed. -/
theorem key?_of_closed (hne : key ≠ []) (hclosed : Closed key) :
    key? (key ++ ": ".toList ++ header) = some (key, ": ".toList ++ header) := by
  have hassoc : key ++ ": ".toList ++ header = key ++ ':' :: ' ' :: header := by
    rw [List.append_assoc]
    rfl
  rw [key?_keyText hkey header hne, hassoc]
  exact keyFrom_of_quiet (.inr rfl) key hkey.quiet hclosed

theorem head?_keyText : (key ++ ": ".toList ++ header).head? ≠ some '#' := by
  obtain ⟨c, cs, htext, hc, -⟩ := exists_keyText hkey header
  rw [htext]
  rintro ⟨⟩
  exact hc (by decide)

/-- The line begins with the token of the key exactly if the quotes of the key are closed. -/
theorem entryTokens_keyText_iff (hne : key ≠ []) :
    (∃ rest, (entryTokens (key ++ ": ".toList ++ header)).tokens =
      .ofChars .key key :: ⟨.delimiter, ":"⟩ :: rest) ↔ Closed key := by
  unfold entryTokens
  rw [if_neg (head?_keyText hkey header)]
  constructor
  · rintro ⟨rest, htokens⟩
    rw [key?_keyText hkey header hne] at htokens
    cases hfound : keyFrom none none (key ++ ": ".toList ++ header) with
    | none =>
      rw [hfound] at htokens
      have hmem : Token.ofChars .key key ∈ (valueTokens (key ++ ": ".toList ++ header)).tokens := by
        rw [htokens]
        exact List.mem_cons_self
      exact absurd rfl (kind_ne_key_of_mem_valueTokens hmem)
    | some k =>
      obtain ⟨-, after, hcolon⟩ := keyFrom_append hfound
      have hclosed := after_of_keyFrom hfound
      obtain ⟨k, behind⟩ := k
      simp only at hcolon hclosed
      subst hcolon
      rw [hfound] at htokens
      by_cases hk : k = []
      · subst hk
        cases htokens
      · simp only [of?_of_ne_nil .key hk, List.cons_append, List.cons.injEq] at htokens
        have hsame := congrArg (fun t : Token => t.text.toList) htokens.1
        simp only [toList_text_ofChars] at hsame
        exact hsame ▸ hclosed
  · intro hclosed
    rw [key?_of_closed hkey header hne hclosed]
    simp only [of?_of_ne_nil .key hne]
    exact ⟨_, rfl⟩

/-- A key that is found in front of the header of a literal block opens the block. -/
theorem opensBlock_keyLine (hne : key ≠ []) (hclosed : Closed key) (text : List Char)
    (hline : Unbroken (keyLine key (blockHeader text))) :
    OpensBlock (keyLine key (blockHeader text) ++ ['\n']) := by
  have hopens : (entryTokens (key ++ ": ".toList ++ blockHeader text)).opensBlock = true := by
    unfold entryTokens
    rw [if_neg (head?_keyText hkey _), key?_of_closed hkey _ hne hclosed]
    rcases blockHeader_cases text with e | e
    · rw [e]
      rfl
    · rw [e]
      rfl
  unfold OpensBlock
  rw [← opensBlock_tokens, ofChars_entryLine hkey _ hline, tokens_entryLine hkey]
  exact hopens

/-- On the line of an entry the key is found exactly if it shows at all and its quotes are
closed. -/
theorem recognized_keyLine_iff (hline : Unbroken (keyLine key header)) :
    (∃ rest, groupOf none (keyLine key header ++ ['\n']) =
      ⟨.whitespace, "  "⟩ :: .ofChars .key key :: ⟨.delimiter, ":"⟩ :: rest) ↔
      key ≠ [] ∧ Closed key := by
  have hgroup : groupOf none (keyLine key header ++ ['\n']) =
      ⟨.whitespace, "  "⟩ :: ((entryTokens (key ++ ": ".toList ++ header)).tokens ++
        [⟨.whitespace, "\n"⟩]) := by
    unfold groupOf
    dsimp only
    rw [ofChars_entryLine hkey header hline, Option.any_none, if_neg Bool.false_ne_true,
      tokens_entryLine hkey header]
    rfl
  rw [hgroup]
  constructor
  · rintro ⟨rest, htokens⟩
    have hne : key ≠ [] := by
      rintro rfl
      have hdrop : '\n' ∉ (keyLine [] header ++ ['\n']).dropLast := by
        rw [List.dropLast_concat]
        exact fun h => (hline _ h).1 rfl
      have hcut := (lineGroup_groupOf none hdrop).cuts.nonempty
      rw [hgroup, htokens] at hcut
      exact hcut (.ofChars .key []) (by simp) rfl
    refine ⟨hne, (entryTokens_keyText_iff hkey header hne).1 ?_⟩
    have hbehind := (List.cons.inj htokens).2
    generalize (entryTokens (key ++ ": ".toList ++ header)).tokens = tokens at hbehind
    cases tokens with
    | nil => cases hbehind
    | cons t ts =>
      obtain ⟨rfl, htail⟩ := List.cons.inj hbehind
      cases ts with
      | nil => cases htail
      | cons t' ts =>
        obtain ⟨rfl, -⟩ := List.cons.inj htail
        exact ⟨ts, rfl⟩
  · rintro ⟨hne, hclosed⟩
    obtain ⟨rest, htokens⟩ := (entryTokens_keyText_iff hkey header hne).2 hclosed
    rw [htokens]
    exact ⟨_, rfl⟩

end

end StepLog.Yaml
