/-
  What stands for a name in front of its text.

  A text of one line stands behind the spelling of its name as YAML has it. In front of a literal
  block the spelling is cut at its end (`textEntry_eq`). That makes no difference to a name in
  quotes, but a plain name loses the blank characters it ends in, and with them what tells it from
  other names. Main statement: `key_texts`.
-/
import StepLog.Proofs.Params.EntryLines
import StepLog.Proofs.Yaml.Injective

namespace StepLog.Params

open Yaml (styleOf spell keyLine)

/-! ## Documents in parts -/

theorem body_append (es fs : List (String × Value)) :
    body (es ++ fs) = (body es).bind fun front => (body fs).map (front ++ ·) := by
  induction es with
  | nil =>
    show body fs = (body fs).map ([] ++ ·)
    cases body fs <;> rfl
  | cons e es ih =>
    rw [List.cons_append, body, body, ih]
    cases entry e.1 e.2 with
    | error fault => rfl
    | ok lines =>
      cases body es with
      | error fault => rfl
      | ok front =>
        cases body fs with
        | error fault => rfl
        | ok back => exact congrArg Except.ok (List.append_assoc lines front back).symm

/-- The lines of a text stand between those of the entries around it. -/
theorem document_around {ps : Params} {before after : List (String × Value)} {name text : String}
    (h : ps.entries = before ++ (name, .text text) :: after) {front back : List Char}
    (hfront : body before = .ok front) (hback : body after = .ok back) :
    ps.document = .ok ("with:\n" ++ String.ofList (front ++ textEntry name text ++ back)) := by
  have hentry : body ((name, .text text) :: after) = .ok (textEntry name text ++ back) := by
    rw [body, hback]
    rfl
  have hempty : ps.entries.isEmpty ≠ true := by
    rw [h, ne_eq, List.isEmpty_iff]
    exact List.append_ne_nil_of_right_ne_nil _ (List.cons_ne_nil _ _)
  unfold document
  rw [if_neg hempty, h, body_append, hfront, hentry, List.append_assoc]
  rfl

/-! ## Names in front of texts -/

/-- The entry of a text, `key` standing for its name: a literal block, or the text behind a colon.
The colon begins a line of its own if the name is `broken` by a line break. -/
def writtenEntry (key : List Char) (broken : Bool) (text : String) : List Char :=
  if text.toList.contains '\n' then literalBlock (Text.trimEnd key) text.toList
  else if broken then "  ? ".toList ++ key ++ "\n  : ".toList ++ spell 2 text ++ ['\n']
  else keyLine key (spell 2 text) ++ ['\n']

theorem textEntry_eq {name : String} (hname : '\n' ∉ name.toList)
    (hlength : Text.byteLength name.toList ≤ 128) (text : String) : textEntry name text =
      writtenEntry (spell 2 name) (name.toList.any Yaml.isBreak) text := by
  unfold textEntry writtenEntry
  split
  · unfold blockEntry
    rw [keySpelling_eq]
  · next htext =>
    have htext : '\n' ∉ text.toList := mt List.contains_iff_mem.2 htext
    cases hbreak : name.toList.any Yaml.isBreak with
    | true => exact plainEntry_long hname htext hbreak
    | false => exact plainEntry_short hname htext hbreak hlength

/-- The text of a parameter stands behind the spelling of its name, which tells the name from all
others. In front of a literal block the spelling is cut at its end: that is the same text unless
the name is plain and ends in a blank character, and it may then be what is left of another plain
name. -/
theorem key_texts {name : String} (hname : '\n' ∉ name.toList)
    (hlength : Text.byteLength name.toList ≤ 128) :
    (Yaml.Node.text name).document = spell 2 name ++ ['\n'] ∧
      (∀ (ps : Params) before text after front back,
        ps.entries = before ++ (name, .text text) :: after →
        body before = .ok front → body after = .ok back →
        ps.document = .ok ("with:\n" ++ String.ofList (front ++
          writtenEntry (spell 2 name) (name.toList.any Yaml.isBreak) text ++ back))) ∧
      (Text.trimEnd (spell 2 name) = spell 2 name ↔
        (styleOf name = .plain → Text.trimEnd name.toList = name.toList)) ∧
      ∀ other : String, '\n' ∉ other.toList →
        (spell 2 name = spell 2 other ↔ name = other) ∧
        (Text.trimEnd (spell 2 name) = Text.trimEnd (spell 2 other) ↔ name = other ∨
          styleOf name = .plain ∧ styleOf other = .plain ∧
            Text.trimEnd name.toList = Text.trimEnd other.toList) := by
  refine ⟨?_, ?_, Yaml.trimEnd_spell_iff 2 hname, fun other hother => ⟨?_, ?_⟩⟩
  · exact Yaml.endLine_spell [] 2 hname
  · intro ps before text after front back hentries hfront hback
    rw [document_around hentries hfront hback, textEntry_eq hname hlength]
  · exact (Yaml.spell_injective 2).eq_iff
  · exact Yaml.trimEnd_spell_inj 2 hname hother

/-- A name that ends in a blank character, in front of a block and between other parameters. -/
theorem key_texts_trimmed :
    let name := "k\u3000"
    '\n' ∉ name.toList ∧ Text.byteLength name.toList ≤ 128 ∧
      (ofList [("a", .int 1), (name, .text "x\ny"), ("b", .int 2)]).document =
        .ok "with:\n  a: 1\n  k: |-\n    x\n    y\n  b: 2\n" ∧
      Text.trimEnd (spell 2 name) = Text.trimEnd (spell 2 "k") ∧ spell 2 name ≠ spell 2 "k" := by
  intro name
  have hname : '\n' ∉ name.toList := by decide
  have hlength : Text.byteLength name.toList ≤ 128 := by decide
  obtain ⟨-, hdocument, -, hother⟩ := key_texts hname hlength
  obtain ⟨hspell, htrim⟩ := hother "k" (by decide)
  refine ⟨hname, hlength, ?_, ?_, ?_⟩
  · have hentries : (ofList [("a", .int 1), (name, .text "x\ny"), ("b", .int 2)]).entries =
        [("a", .int 1)] ++ (name, .text "x\ny") :: [("b", .int 2)] := rfl
    have hfront : body [("a", .int 1)] = .ok "  a: 1\n".toList := by decide +kernel
    have hback : body [("b", .int 2)] = .ok "  b: 2\n".toList := by decide +kernel
    exact (hdocument _ _ _ _ _ _ hentries hfront hback).trans (by decide +kernel)
  · exact htrim.2 (.inr ⟨by decide +kernel, by decide +kernel, by decide⟩)
  · exact fun h => absurd (hspell.1 h) (by decide)

/-- The same name, with and without the blank character it ends in. In front of a block it is the
name without it. -/
theorem blank_end_cut_from_key :
    (ofList [("k\u00a0", .text "a")]).document = .ok "with:\n  k\u00a0: a\n" ∧
      (ofList [("k\u00a0", .text "a\nb")]).document = .ok "with:\n  k: |-\n    a\n    b\n" ∧
      (ofList [("k", .text "a\nb")]).document = .ok "with:\n  k: |-\n    a\n    b\n" :=
  ⟨rfl, rfl, rfl⟩

end StepLog.Params
