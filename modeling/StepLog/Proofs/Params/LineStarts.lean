/-
  Where the lines of a document begin.

  Whatever the parameters hold, no line of their document begins with a colon
  (`guarded_document`). Every line of an entry is indented, or empty. The one text that is not
  cut into lines again is a name that is spelled over several lines; there the spelling itself
  indents what follows a line break (`guarded_spell`).
-/
import StepLog.Params.Document
import StepLog.Proofs.Style.LineStarts
import StepLog.Proofs.Text.Lines
import StepLog.Proofs.Yaml.Line

namespace StepLog

open Style (Guarded guarded_append guarded_of_not_mem freshAfter endsLine?)

namespace Yaml

/-! ## Spelled texts -/

theorem not_mem_spaces {c : Char} (hc : c ≠ ' ') (n : Nat) : c ∉ spaces n :=
  fun h => hc (List.eq_of_mem_replicate h)

/-- A colon behind a line break is behind spaces as well. -/
theorem guarded_indented (n : Nat) (s : List Char) {fresh atBreak : Bool}
    (h : fresh = true → atBreak = true) : Guarded fresh (indented (n + 1) atBreak s) := by
  induction s generalizing fresh atBreak with
  | nil => trivial
  | cons c cs ih =>
    unfold indented
    split
    · next hc =>
      refine ⟨fun _ => ?_, ih fun _ => rfl⟩
      rintro rfl
      cases hc
    · next hc =>
      have hline : (c == '\n') = false := by
        rw [beq_eq_false_iff_ne]
        rintro rfl
        exact hc rfl
      have hcs : Guarded (c == '\n') (indented (n + 1) false cs) := by
        rw [hline]
        exact ih nofun
      cases atBreak with
      | false =>
        refine ⟨fun hf => ?_, hcs⟩
        cases h hf
      | true =>
        -- The spaces are not empty, so the character behind them begins no line.
        rw [if_pos rfl, spaces, List.replicate_succ', List.append_assoc, guarded_append]
        refine ⟨Style.guarded_of_colon_not_mem (not_mem_spaces (by decide) n) fresh, ?_⟩
        exact ⟨fun _ => by decide, nofun, hcs⟩

theorem not_mem_hexDigits {c : Char} (h : ∀ k < 16, c ≠ "0123456789ABCDEF".toList.getD k '0')
    (width n : Nat) : c ∉ Text.hexDigits width n := by
  induction width generalizing n with
  | zero => exact List.not_mem_nil
  | succ width ih =>
    unfold Text.hexDigits
    rw [List.mem_append, List.mem_singleton, not_or]
    exact ⟨ih _, h (n % 16) (Nat.mod_lt n (by decide))⟩

theorem not_mem_escape (c : Char) : '\n' ∉ escape c := by
  have hhex : ∀ mark width, '\n' ≠ mark → '\n' ∉ '\\' :: mark :: Text.hexDigits width c.toNat := by
    intro mark width hmark
    rw [List.mem_cons, List.mem_cons, not_or, not_or]
    exact ⟨by decide, hmark, not_mem_hexDigits (by decide) width c.toNat⟩
  unfold escape
  split
  · next letter h =>
    have hletter : '\n' ≠ letter := by
      unfold shortEscape? at h
      split at h <;> cases h <;> decide
    rw [List.mem_cons, List.mem_singleton, not_or]
    exact ⟨by decide, hletter⟩
  · next h =>
    split
    · rw [List.mem_singleton]
      rintro rfl
      cases h
    · split
      · exact hhex 'x' 2 (by decide)
      · split
        · exact hhex 'u' 4 (by decide)
        · exact hhex 'U' 8 (by decide)

theorem not_mem_doubleQuoted (s : List Char) : '\n' ∉ doubleQuoted s := by
  unfold doubleQuoted
  rw [List.mem_append, List.mem_cons, not_or, not_or]
  refine ⟨⟨by decide, fun h => ?_⟩, by decide⟩
  obtain ⟨c, -, hc⟩ := List.mem_flatMap.1 h
  exact not_mem_escape c hc

theorem not_mem_literalHeader (s : List Char) : '\n' ∉ literalHeader s := by
  have hwidth : '\n' ∉ (if s.head?.any isSpaceOrBreak then ['2'] else [] : List Char) := by
    split <;> decide
  unfold literalHeader
  rw [List.mem_append, List.mem_cons, not_or, not_or]
  refine ⟨⟨by decide, hwidth⟩, ?_⟩
  split
  · decide
  · split <;> decide
  · split
    · decide
    · split <;> decide

theorem guarded_spell (n : Nat) (s : String) : Guarded false (spell (n + 1) s) := by
  unfold spell
  split
  · next h =>
    refine guarded_of_not_mem fun hmem => ?_
    unfold styleOf at h
    rw [if_pos (List.elem_eq_true_of_mem hmem)] at h
    split at h <;> cases h
  · unfold singleQuoted
    rw [guarded_append, guarded_append]
    refine ⟨⟨⟨nofun, guarded_indented n _ nofun⟩, ?_⟩, fun _ => by decide, trivial⟩
    refine Style.guarded_of_colon_not_mem ?_ _
    split
    · exact not_mem_spaces (by decide) (n + 1)
    · exact List.not_mem_nil
  · exact guarded_of_not_mem (not_mem_doubleQuoted s.toList)
  · unfold literalBlock
    rw [guarded_append]
    exact ⟨guarded_of_not_mem (not_mem_literalHeader s.toList), fun _ => by decide,
      guarded_indented n _ fun _ => rfl⟩

end Yaml

/-! ## Entries -/

namespace Params

theorem endsLine?_trimEnd (s : List Char) : endsLine? (Text.trimEnd s) ≠ some true := by
  unfold Text.trimEnd Text.dropEndWhile endsLine?
  rw [List.getLast?_reverse]
  cases h : (s.reverse.dropWhile Text.isBlank).head? with
  | none => simp
  | some c =>
    intro e
    obtain rfl : c = '\n' := by simpa using e
    cases stop_of_dropWhile h

/-- A name, spelled behind the spaces in front of it. -/
theorem guarded_keySpelling (name : String) : Guarded false (keySpelling name) := by
  have hspell : Guarded false (Yaml.Node.text name).document := by
    show Guarded false (Yaml.endLine (Yaml.spell 2 name))
    unfold Yaml.endLine
    split
    · exact Yaml.guarded_spell 1 name
    · rw [guarded_append]
      exact ⟨Yaml.guarded_spell 1 name, fun _ => by decide, trivial⟩
  rw [← Yaml.trimEnd_append (Yaml.Node.text name).document, guarded_append] at hspell
  exact hspell.1

theorem freshAfter_keySpelling (name : String) : freshAfter false (keySpelling name) = false := by
  have h := endsLine?_trimEnd (Yaml.Node.text name).document
  unfold freshAfter keySpelling
  cases e : endsLine? (Text.trimEnd (Yaml.Node.text name).document) with
  | none => rfl
  | some ends =>
    rw [e] at h
    exact Bool.eq_false_iff.2 fun ht => h (congrArg some ht)

theorem guarded_blockLine {line : List Char} (h : '\n' ∉ line) : Guarded true (blockLine line) := by
  unfold blockLine
  rw [guarded_append]
  refine ⟨?_, fun _ => by decide, trivial⟩
  split
  · trivial
  · rw [guarded_append]
    exact ⟨Style.guarded_of_colon_not_mem (by decide) true, guarded_of_not_mem h⟩

theorem guarded_blockEntry (name : String) (text : List Char) :
    Guarded true (blockEntry name text) := by
  have hheader : Guarded false (": ".toList ++ blockHeader text ++ ['\n']) := by
    unfold blockHeader
    split
    · exact (Style.guarded_iff _ _).2 (by decide)
    · exact (Style.guarded_iff _ _).2 (by decide)
  have hlines : Guarded true ((Text.lines text).flatMap blockLine) :=
    .flatMap fun line hl => guarded_blockLine (Text.not_mem_of_mem_lines hl)
  have hassoc : blockEntry name text = "  ".toList ++ (keySpelling name ++
      ((": ".toList ++ blockHeader text ++ ['\n']) ++ (Text.lines text).flatMap blockLine)) := by
    unfold blockEntry literalBlock
    simp only [List.append_assoc]
  rw [hassoc, guarded_append, guarded_append, guarded_append]
  refine ⟨Style.guarded_of_colon_not_mem (by decide) true, guarded_keySpelling name, ?_,
    hlines.anywhere _⟩
  have hfresh := freshAfter_keySpelling name
  show Guarded (freshAfter false (keySpelling name)) _
  rw [hfresh]
  exact hheader

theorem guarded_plainEntry (name : String) (node : Yaml.Node) :
    Guarded true (plainEntry name node) := by
  refine .flatMap fun line hl => ?_
  rw [guarded_append, guarded_append]
  exact ⟨⟨Style.guarded_of_colon_not_mem (by decide) true,
    guarded_of_not_mem (Text.not_mem_of_mem_lines hl)⟩, fun _ => by decide, trivial⟩

/-- There are two ways to write an entry. -/
theorem entry_cases {name : String} {value : Value} {lines : List Char}
    (h : entry name value = .ok lines) :
    (∃ text, lines = blockEntry name text) ∨ ∃ node, lines = plainEntry name node := by
  unfold entry at h
  split at h
  · cases h
  · next s _ =>
    cases h
    split
    · exact .inl ⟨s.toList, rfl⟩
    · exact .inr ⟨_, rfl⟩
  · split at h
    · cases h
    · cases h
      exact .inr ⟨_, rfl⟩

/-- What holds of every entry that is written, and of texts put together, holds of them all. -/
theorem body_invariant {P : List Char → Prop} (hnil : P [])
    (happend : ∀ {s t : List Char}, P s → P t → P (s ++ t))
    (hentry : ∀ {name value lines}, entry name value = .ok lines → P lines)
    {entries : List (String × Value)} {lines : List Char} (h : body entries = .ok lines) :
    P lines := by
  induction entries generalizing lines with
  | nil =>
    cases h
    exact hnil
  | cons e entries ih =>
    unfold body at h
    split at h
    · cases h
    · cases h
    · next hfirst hbody =>
      cases h
      exact happend (hentry hfirst) (ih hbody)

theorem guarded_entry {name : String} {value : Value} {lines : List Char}
    (h : entry name value = .ok lines) : Guarded true lines := by
  rcases entry_cases h with ⟨text, rfl⟩ | ⟨node, rfl⟩
  · exact guarded_blockEntry name text
  · exact guarded_plainEntry name node

theorem guarded_body {entries : List (String × Value)} {lines : List Char}
    (h : body entries = .ok lines) : Guarded true lines :=
  body_invariant trivial (fun hs ht => guarded_append.2 ⟨hs, ht.anywhere _⟩) guarded_entry h

/-- No line of a document begins with a colon. -/
theorem guarded_document {ps : Params} {document : String} (h : ps.document = .ok document) :
    Guarded true document.toList := by
  unfold Params.document at h
  split at h
  · cases h
    exact Style.guarded_true_iff.2 (by decide)
  · cases hbody : body ps.entries with
    | error fault =>
      rw [hbody] at h
      cases h
    | ok lines =>
      rw [hbody] at h
      cases h
      have hlines : (String.ofList lines).toList = lines := String.toList_ofList
      rw [String.toList_append, guarded_append, hlines]
      exact ⟨Style.guarded_true_iff.2 (by decide), (guarded_body hbody).anywhere _⟩

end Params

end StepLog
