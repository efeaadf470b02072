/-
  The shell lexer loses nothing.

  Each step of the lexer cuts what it takes off the front (`cuts_next`), so the tokens of a
  scan cut the text (`cuts_scan`, `cuts_tokenize`). Main statement: the lexer accepts a text exactly when it
  has no NUL character, its tokens then are not empty and give the text back, and otherwise
  the fault names the first NUL (`tokenize_lossless`).
-/
import StepLog.Proofs.Cutting
import StepLog.Shell.Lexer

namespace StepLog.Shell

/-! ## Words -/

/-- No part of a word is empty. -/
theorem text_ne_nil_of_mem_word {s : List Char} {seg : Segment} (h : seg ∈ (word s).1) :
    seg.text ≠ [] := by
  fun_induction word s with
  | case1 => cases h
  | case2 => cases h
  | case3 c cs _ _ ih =>
    rcases List.mem_cons.1 h with rfl | h
    · simp [Segment.text]
    · exact ih h
  | case4 cs _ _ ih =>
    rcases List.mem_cons.1 h with rfl | h
    · simp [Segment.text]
    · exact ih h
  | case5 c cs h₁ h₂ h₃ ih =>
    rcases List.mem_cons.1 h with rfl | h
    · have hr : 1 ≤ (run (c :: cs)).1.length := one_le_length_run (by simp_all [endsRun])
      exact List.ne_nil_of_length_pos hr
    · exact ih h

theorem cuts_segmentTokens (first later : TokenKind) {segments : List Segment}
    (h : ∀ seg ∈ segments, seg.text ≠ []) :
    Cuts (segmentTokens first later segments) (wordText segments) := by
  induction segments generalizing first with
  | nil => exact .nil
  | cons seg segments ih =>
    have hrest := ih later fun s hs => h s (List.mem_cons_of_mem _ hs)
    have hseg := h seg List.mem_cons_self
    cases seg with
    | plain t => exact (Cuts.single first hseg).append hrest
    | quoted t => exact (Cuts.single .string hseg).append hrest
    | parameter t => exact (Cuts.single .var hseg).append hrest

theorem wordText_ne_nil {segments : List Segment} (h : ∀ seg ∈ segments, seg.text ≠ [])
    (hl : segments.length = 1) : wordText segments ≠ [] := by
  obtain ⟨seg, rfl⟩ := List.length_eq_one_iff.1 hl
  have hs := h seg List.mem_cons_self
  simpa [wordText] using hs

/-- The tokens of a word cut it, whatever the position makes of it. -/
theorem cuts_classify (p : Position) {segments : List Segment}
    (h : ∀ seg ∈ segments, seg.text ≠ []) : Cuts (classify p segments).1 (wordText segments) := by
  unfold classify
  dsimp only
  split
  · exact cuts_segmentTokens _ _ h
  · split
    · split
      · exact cuts_segmentTokens _ _ h
      · exact cuts_segmentTokens _ _ h
    · split
      · exact cuts_segmentTokens _ _ h
      · split
        · next hk =>
          rw [Bool.and_eq_true, beq_iff_eq] at hk
          exact Cuts.single .keyword (wordText_ne_nil h hk.1)
        · exact cuts_segmentTokens _ _ h

/-! ## Scanning -/

/-- One step cuts what it takes off the front. -/
theorem cuts_next (p : Position) (c : Char) (cs : List Char) :
    ∃ front, Cuts (next p c cs).tokens front ∧ front ++ (next p c cs).rest = c :: cs := by
  unfold next
  split
  · next h =>
    refine ⟨_, Cuts.single _ ?_, List.takeWhile_append_dropWhile⟩
    rw [List.takeWhile_cons_of_pos h]
    exact List.cons_ne_nil _ _
  · split
    · next h =>
      refine ⟨_, Cuts.single _ ?_, List.takeWhile_append_dropWhile⟩
      rw [List.takeWhile_cons_of_pos (by simp [h])]
      exact List.cons_ne_nil _ _
    · split
      · refine ⟨_, Cuts.single _ ?_, operator_append c cs⟩
        exact List.ne_nil_of_length_pos (one_le_length_operator c cs)
      · exact ⟨_, cuts_classify p fun _ => text_ne_nil_of_mem_word,
          wordText_append_rest (c :: cs)⟩

/-- The tokens of a scan cut the text, from every position. -/
theorem cuts_scan (p : Position) (s : List Char) : Cuts (scan p s) s := by
  fun_induction scan p s with
  | case1 => exact .nil
  | case2 p c cs ih =>
    obtain ⟨front, hcut, hfront⟩ := cuts_next p c cs
    rw [← hfront]
    exact hcut.append ih

/-- What the lexer accepts it cuts. -/
theorem cuts_tokenize {text : String} {tokens : List Token}
    (h : lexer.tokenize text = .ok tokens) : Cuts tokens text.toList := by
  by_cases hnul : '\x00' ∈ text.toList
  · obtain ⟨offset, hn⟩ := exists_firstNul hnul
    have e : lexer.tokenize text = .error ⟨"shell", .nul offset⟩ := tokenize_of_firstNul _ _ hn
    rw [e] at h
    cases h
  · have e : lexer.tokenize text = .ok (scan .start text.toList) := tokenize_of_no_nul _ _ hnul
    rw [e] at h
    cases h
    exact cuts_scan .start text.toList

/-- The lexer accepts exactly the texts without NUL characters. It cuts these into tokens that
are not empty and give the text back; for any other it names the first NUL. -/
theorem tokenize_lossless (text : String) :
    ((∃ tokens, lexer.tokenize text = .ok tokens) ↔ '\x00' ∉ text.toList) ∧
    (∀ tokens, lexer.tokenize text = .ok tokens →
      (∀ t ∈ tokens, t.text ≠ "") ∧ String.join (tokens.map Token.text) = text) ∧
    (∀ fault, lexer.tokenize text = .error fault →
      ∃ offset, FirstNul text offset ∧ fault = ⟨"shell", .nul offset⟩ ∧
        fault.message =
          "shell lexer failed: unexpected NUL byte at offset " ++ toString offset) := by
  by_cases h : '\x00' ∈ text.toList
  · obtain ⟨offset, hn⟩ := exists_firstNul h
    have e : lexer.tokenize text = .error ⟨"shell", .nul offset⟩ := tokenize_of_firstNul _ _ hn
    rw [e]
    refine ⟨⟨fun ⟨_, ht⟩ => (by cases ht), fun hn => absurd h hn⟩, fun _ ht => (by cases ht), ?_⟩
    rintro fault hf
    cases hf
    exact ⟨offset, hn, rfl, rfl⟩
  · have e : lexer.tokenize text = .ok (scan .start text.toList) := tokenize_of_no_nul _ _ h
    refine ⟨⟨fun _ => h, fun _ => ⟨_, e⟩⟩, ?_, ?_⟩
    · intro tokens ht
      have hcut := cuts_tokenize ht
      exact ⟨hcut.nonempty, hcut.join⟩
    · intro fault hf
      rw [e] at hf
      cases hf

end StepLog.Shell
