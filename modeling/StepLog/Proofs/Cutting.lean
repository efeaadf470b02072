/-
  Cutting a text into tokens.

  `Cuts tokens s` says that the tokens, put together, are `s`, and that none is empty. It is
  kept by putting cut texts together, so a lexer is lossless if each of its steps is. What a
  lexer does with NUL characters is settled here for both lexers.

  A reader that may fail is taken apart by what its outcome says of its first part and of the
  rest (`bind_error`, `bind_ok`).
-/
import StepLog.Token

namespace StepLog

/-! ## Results that may be faults -/

theorem bind_error {ε α β : Type} {x : Except ε α} {f : α → Except ε β} {e : ε}
    (h : x >>= f = .error e) : x = .error e ∨ ∃ a, x = .ok a ∧ f a = .error e := by
  cases x with
  | error e' =>
    cases h
    exact .inl rfl
  | ok a => exact .inr ⟨a, rfl, h⟩

theorem bind_ok {ε α β : Type} {x : Except ε α} {f : α → Except ε β} {b : β}
    (h : x >>= f = .ok b) : ∃ a, x = .ok a ∧ f a = .ok b := by
  cases x with
  | error e => cases h
  | ok a => exact ⟨a, rfl, h⟩

/-! ## Tokens and their characters -/

/-- The characters of tokens, in order. -/
def charsOf (tokens : List Token) : List Char := tokens.flatMap fun t => t.text.toList

@[simp] theorem charsOf_nil : charsOf [] = [] := rfl

@[simp] theorem charsOf_cons (t : Token) (tokens : List Token) :
    charsOf (t :: tokens) = t.text.toList ++ charsOf tokens := by
  simp [charsOf]

@[simp] theorem charsOf_append (xs ys : List Token) :
    charsOf (xs ++ ys) = charsOf xs ++ charsOf ys := by
  simp [charsOf]

@[simp] theorem toList_text_ofChars (kind : TokenKind) (s : List Char) :
    (Token.ofChars kind s).text.toList = s := String.toList_ofList

theorem ofChars_toList (kind : TokenKind) (s : String) : Token.ofChars kind s.toList = ⟨kind, s⟩ :=
  congrArg (Token.mk kind) String.ofList_toList

@[simp] theorem charsOf_of? (kind : TokenKind) (s : List Char) :
    charsOf (Token.of? kind s) = s := by
  unfold Token.of?
  split
  · next h => rw [List.isEmpty_iff.1 h]; rfl
  · rw [charsOf_cons, toList_text_ofChars, charsOf_nil, List.append_nil]

theorem ne_nil_of_mem_of? {kind : TokenKind} {s : List Char} {t : Token}
    (h : t ∈ Token.of? kind s) : t = .ofChars kind s ∧ s ≠ [] := by
  unfold Token.of? at h
  split at h
  · cases h
  · next hs =>
    rw [List.isEmpty_iff] at hs
    exact ⟨List.mem_singleton.1 h, hs⟩

theorem of?_of_ne_nil (kind : TokenKind) {s : List Char} (h : s ≠ []) :
    Token.of? kind s = [.ofChars kind s] := if_neg (mt List.isEmpty_iff.1 h)

theorem text_ofChars_ne {kind : TokenKind} {s : List Char} (h : s ≠ []) :
    (Token.ofChars kind s).text ≠ "" := by
  intro e
  apply h
  rw [← toList_text_ofChars kind s, e]
  rfl

/-- The tokens cut `s` into pieces that are not empty. -/
structure Cuts (tokens : List Token) (s : List Char) : Prop where
  chars : charsOf tokens = s
  nonempty : ∀ t ∈ tokens, t.text ≠ ""

namespace Cuts

theorem nil : Cuts [] [] := ⟨rfl, by simp⟩

theorem append {xs ys : List Token} {s t : List Char} (h : Cuts xs s) (h' : Cuts ys t) :
    Cuts (xs ++ ys) (s ++ t) where
  chars := by rw [charsOf_append, h.chars, h'.chars]
  nonempty t ht := by
    rcases List.mem_append.1 ht with ht | ht
    · exact h.nonempty t ht
    · exact h'.nonempty t ht

/-- One token for a text that is not empty. -/
theorem single (kind : TokenKind) {s : List Char} (h : s ≠ []) : Cuts [.ofChars kind s] s where
  chars := by simp
  nonempty t ht := by
    rw [List.mem_singleton.1 ht]
    exact text_ofChars_ne h

theorem of? (kind : TokenKind) (s : List Char) : Cuts (Token.of? kind s) s where
  chars := charsOf_of? kind s
  nonempty t ht := by
    obtain ⟨rfl, hs⟩ := ne_nil_of_mem_of? ht
    exact text_ofChars_ne hs

/-- Of nothing there are no tokens. -/
theorem eq_nil {tokens : List Token} (h : Cuts tokens []) : tokens = [] := by
  cases tokens with
  | nil => rfl
  | cons t ts =>
    have hchars := h.chars
    rw [charsOf_cons, List.append_eq_nil_iff] at hchars
    exact absurd (String.toList_inj.1 hchars.1) (h.nonempty t List.mem_cons_self)

theorem mem {tokens : List Token} {s : List Char} (h : Cuts tokens s) {t : Token}
    (ht : t ∈ tokens) {c : Char} (hc : c ∈ t.text.toList) : c ∈ s := by
  rw [← h.chars]
  exact List.mem_flatMap.2 ⟨t, ht, hc⟩

/-- Cut text, put together again. -/
theorem join {tokens : List Token} {text : String} (h : Cuts tokens text.toList) :
    String.join (tokens.map Token.text) = text := by
  apply String.toList_injective
  rw [String.toList_join, List.flatMap_map]
  exact h.chars

end Cuts

/-! ## Runs -/

/-- Behind a run that is cut off as long as can be stands a character that is not of its kind. -/
theorem stop_of_dropWhile {p : Char → Bool} {s : List Char} {c : Char}
    (h : c ∈ (s.dropWhile p).head?) : p c = false := by
  have hstop := List.head?_dropWhile_not p s
  rw [h] at hstop
  exact hstop

/-! ## NUL characters -/

theorem beforeNul?_eq_none {s : List Char} : beforeNul? s = none ↔ '\x00' ∉ s := by
  induction s with
  | nil => simp [beforeNul?]
  | cons c cs ih =>
    unfold beforeNul?
    split
    · next h => simp [h]
    · next h => simp [ih, Ne.symm h]

theorem beforeNul?_append {front : List Char} (h : '\x00' ∉ front) (rest : List Char) :
    beforeNul? (front ++ '\x00' :: rest) = some front := by
  induction front with
  | nil => rfl
  | cons c cs ih =>
    rw [List.mem_cons, not_or] at h
    rw [List.cons_append, beforeNul?, if_neg (Ne.symm h.1), ih h.2]
    rfl

theorem utf8ByteSize_ofList (s : List Char) :
    (String.ofList s).utf8ByteSize = Text.byteLength s := by
  induction s with
  | nil => rfl
  | cons c cs ih =>
    have hc : String.ofList (c :: cs) = String.singleton c ++ String.ofList cs := by
      rw [String.singleton_eq_ofList, ← String.ofList_append]
      rfl
    rw [hc, String.utf8ByteSize_append, String.utf8ByteSize_singleton, ih]
    rfl

/-- The first NUL character of a text stands `offset` bytes behind its start. -/
def FirstNul (text : String) (offset : Nat) : Prop :=
  ∃ front rest : String, text = front ++ "\x00" ++ rest ∧ '\x00' ∉ front.toList ∧
    offset = front.utf8ByteSize

theorem exists_firstNul {text : String} (h : '\x00' ∈ text.toList) :
    ∃ offset, FirstNul text offset := by
  obtain ⟨front, rest, e, hf⟩ := List.eq_append_cons_of_mem h
  refine ⟨_, String.ofList front, String.ofList rest, ?_, by rwa [String.toList_ofList], rfl⟩
  apply String.toList_injective
  simp only [String.toList_append, String.toList_ofList, List.append_assoc]
  exact e

variable (name : String) (f : List Char → Except LexFault (List Token)) {text : String}

theorem tokenize_of_no_nul (h : '\x00' ∉ text.toList) :
    (Lexer.rejectingNul name f).tokenize text = f text.toList := by
  unfold Lexer.rejectingNul
  dsimp only
  rw [beforeNul?_eq_none.2 h]

theorem tokenize_of_firstNul {offset : Nat} (h : FirstNul text offset) :
    (Lexer.rejectingNul name f).tokenize text = .error ⟨name, .nul offset⟩ := by
  obtain ⟨front, rest, rfl, hf, rfl⟩ := h
  have e : (front ++ "\x00" ++ rest).toList = front.toList ++ '\x00' :: rest.toList := by
    rw [String.toList_append, String.toList_append, List.append_assoc]
    rfl
  have hb : Text.byteLength front.toList = front.utf8ByteSize := by
    rw [← utf8ByteSize_ofList, String.ofList_toList]
  unfold Lexer.rejectingNul
  dsimp only
  rw [e, beforeNul?_append hf]
  dsimp only
  rw [hb]

end StepLog
