/-
  A document holds printable characters only.

  A text that has any other character is written in double quotes, where it is escaped; a
  character that a tag does not hold is written as its bytes; and whatever else stands in a
  document is put there by the layout. So a document is printable whatever value it is made
  of (`printable_document`).
-/
import StepLog.Yaml.Layout

namespace StepLog.Yaml

/-- All characters may stand in a document. -/
def Printable (s : List Char) : Prop := ∀ c ∈ s, isPrintable c = true

namespace Printable

theorem nil : Printable [] := by
  intro c hc
  cases hc

theorem cons {c : Char} {s : List Char} (hc : isPrintable c = true) (h : Printable s) :
    Printable (c :: s) := by
  intro d hd
  rcases List.mem_cons.1 hd with rfl | hd
  · exact hc
  · exact h d hd

theorem append {s t : List Char} (h : Printable s) (h' : Printable t) : Printable (s ++ t) := by
  intro c hc
  rcases List.mem_append.1 hc with hc | hc
  · exact h c hc
  · exact h' c hc

theorem subset {s t : List Char} (h : Printable t) (hs : s ⊆ t) : Printable s :=
  fun c hc => h c (hs hc)

theorem flatMap {α : Type} {f : α → List Char} (as : List α) (h : ∀ a ∈ as, Printable (f a)) :
    Printable (as.flatMap f) := by
  intro c hc
  obtain ⟨a, ha, hc⟩ := List.mem_flatMap.1 hc
  exact h a ha c hc

/-- A fixed text, by looking at it. -/
theorem of_all {s : List Char} (h : s.all isPrintable = true) : Printable s :=
  List.all_eq_true.1 h

theorem ite {p : Prop} [Decidable p] {s t : List Char} (h : Printable s) (h' : Printable t) :
    Printable (if p then s else t) := by
  split
  · exact h
  · exact h'

end Printable

theorem isPrintable_of_ascii {c : Char} (h : 0x20 ≤ c.toNat) (h' : c.toNat ≤ 0x7E) :
    isPrintable c = true := by
  unfold isPrintable
  simp [h, h']

theorem isPrintable_of_isDigit {c : Char} (h : c.isDigit = true) : isPrintable c = true := by
  have hrange : 48 ≤ c.toNat ∧ c.toNat ≤ 57 := Char.isDigit_iff_toNat.1 h
  exact isPrintable_of_ascii (by omega) (by omega)

theorem printable_spaces (n : Nat) : Printable (spaces n) := by
  intro c hc
  rw [List.eq_of_mem_replicate hc]
  rfl

/-! ## Numbers -/

theorem printable_nat (n : Nat) : Printable (toString n).toList := by
  have e : (toString n).toList = Nat.toDigits 10 n := Nat.toList_repr
  rw [e]
  intro c hc
  exact isPrintable_of_isDigit (Nat.isDigit_of_mem_toDigits (by decide) (by decide) hc)

theorem printable_int (n : Int) : Printable (toString n).toList := by
  rw [Int.toString_eq_repr, Int.repr_eq_if]
  split
  · exact printable_nat _
  · rw [String.toList_append]
    exact .append (.of_all rfl) (printable_nat _)

theorem printable_hexDigit (n : Nat) : isPrintable (Text.hexDigit n) = true := by
  have h : ∀ k < 16, isPrintable ("0123456789ABCDEF".toList.getD k '0') = true := by decide
  exact h (n % 16) (Nat.mod_lt n (by decide))

theorem printable_hexDigits (width n : Nat) : Printable (Text.hexDigits width n) := by
  induction width generalizing n with
  | zero => exact .nil
  | succ width ih => exact (ih _).append (.cons (printable_hexDigit n) .nil)

theorem printable_zeros (n : Nat) : Printable (Decimal.zeros n).toList := by
  rw [Decimal.zeros, String.toList_ofList]
  intro c hc
  rw [List.eq_of_mem_replicate hc]
  rfl

theorem printable_decimal (f : Decimal.Notation) (d : Decimal.Dec) :
    Printable (f.layout d).toList := by
  have hdigits := printable_nat d.digits
  have htake : ∀ n, Printable ((toString d.digits).toList.take n) :=
    fun n => hdigits.subset (List.take_subset _ _)
  have hdrop : ∀ n, Printable ((toString d.digits).toList.drop n) :=
    fun n => hdigits.subset (List.drop_subset _ _)
  unfold Decimal.Notation.layout
  dsimp only
  split
  · split
    · simp only [String.toList_append]
      exact (hdigits.append (printable_zeros _)).append (.of_all rfl)
    · split
      · simp only [String.toList_append, String.toList_ofList]
        exact ((htake _).append (.of_all rfl)).append (hdrop _)
      · simp only [String.toList_append]
        exact ((Printable.of_all rfl).append (printable_zeros _)).append hdigits
  · simp only [String.toList_append, String.toList_ofList]
    refine (((htake _).append ?_).append (.of_all rfl)).append (printable_int _)
    split
    · exact .nil
    · simp only [String.toList_append, String.toList_ofList]
      exact (Printable.of_all rfl).append (hdrop _)

theorem printable_float (bits : UInt64) : Printable (floats.write bits).toList := by
  have hsign : Printable (if bits.toNat / Nat.pow 2 63 = 1 then "-" else "").toList := by
    split
    · exact .of_all rfl
    · exact .nil
  unfold Decimal.Notation.write
  dsimp only
  split
  · split
    · rw [String.toList_append]
      exact hsign.append (.of_all rfl)
    · exact .of_all rfl
  · split
    · rw [String.toList_append]
      exact hsign.append (.of_all rfl)
    · rw [String.toList_append]
      exact hsign.append (printable_decimal _ _)

/-! ## Texts -/

theorem isPrintable_shortEscape {c letter : Char} (h : shortEscape? c = some letter) :
    isPrintable letter = true := by
  unfold shortEscape? at h
  split at h <;> cases h <;> rfl

theorem printable_escape (c : Char) : Printable (escape c) := by
  have hhex : ∀ mark width, isPrintable mark = true →
      Printable ('\\' :: mark :: Text.hexDigits width c.toNat) :=
    fun mark width hmark => .cons rfl (.cons hmark (printable_hexDigits width c.toNat))
  unfold escape
  split
  · next letter h => exact .cons rfl (.cons (isPrintable_shortEscape h) .nil)
  · split
    · next h => exact .cons h .nil
    · split
      · exact hhex 'x' 2 rfl
      · split
        · exact hhex 'u' 4 rfl
        · exact hhex 'U' 8 rfl

theorem printable_doubleQuoted (s : List Char) : Printable (doubleQuoted s) := by
  unfold doubleQuoted
  exact (Printable.cons rfl (.flatMap s fun c _ => printable_escape c)).append (.of_all rfl)

theorem printable_indented (indent : Nat) {atBreak : Bool} {s : List Char} (h : Printable s) :
    Printable (indented indent atBreak s) := by
  induction s generalizing atBreak with
  | nil => exact .nil
  | cons c cs ih =>
    have hc := h c List.mem_cons_self
    have ih := fun {atBreak} => @ih atBreak fun d hd => h d (List.mem_cons_of_mem _ hd)
    unfold indented
    split
    · exact .cons hc ih
    · refine Printable.append ?_ (.cons hc ih)
      exact .ite (printable_spaces indent) .nil

theorem printable_singleQuoted (indent : Nat) {s : List Char} (h : Printable s) :
    Printable (singleQuoted indent s) := by
  have hdouble : Printable (doubleQuotes s) := by
    refine .flatMap s fun c hc => ?_
    exact .ite (.of_all rfl) (.cons (h c hc) .nil)
  unfold singleQuoted
  refine (Printable.append (.cons rfl (printable_indented indent hdouble)) ?_).append (.of_all rfl)
  exact .ite (printable_spaces indent) .nil

theorem printable_literalBlock (indent : Nat) {s : List Char} (h : Printable s) :
    Printable (literalBlock indent s) := by
  have hheader : Printable (literalHeader s) := by
    unfold literalHeader
    refine Printable.append (.cons rfl (.ite (.of_all rfl) .nil)) ?_
    split
    · exact .of_all rfl
    · exact .ite (.of_all rfl) (.of_all rfl)
    · exact .ite (.of_all rfl) (.ite (.of_all rfl) .nil)
  exact hheader.append (.cons rfl (printable_indented indent h))

/-- Only a printable text is written in a style without escapes. -/
theorem printable_of_styleOf {s : String} (h : styleOf s ≠ .double) : Printable s.toList := by
  have hspecial : (shape s.toList).special = false := by
    unfold styleOf at h
    dsimp only at h
    split at h
    · split at h
      · next hl => simp_all [Shape.allowsLiteral]
      · exact absurd rfl h
    · split at h
      · next hp => simp_all [Shape.allowsPlain]
      · split at h
        · next hs => simp_all [Shape.allowsSingle]
        · exact absurd rfl h
  intro c hc
  have hany := List.any_eq_false.1 hspecial c hc
  simpa using hany

theorem printable_spell (indent : Nat) (s : String) : Printable (spell indent s) := by
  unfold spell
  split
  · next h => exact printable_of_styleOf (by rw [h]; decide)
  · next h => exact printable_singleQuoted indent (printable_of_styleOf (by rw [h]; decide))
  · exact printable_doubleQuoted s.toList
  · next h => exact printable_literalBlock indent (printable_of_styleOf (by rw [h]; decide))

/-! ## Tags -/

theorem isPrintable_of_isTagChar {c : Char} (h : isTagChar c = true) : isPrintable c = true := by
  unfold isTagChar at h
  rw [Bool.or_eq_true] at h
  rcases h with h | h
  · have hrange : 48 ≤ c.toNat ∧ c.toNat ≤ 122 := by
      unfold Char.isAlphanum Char.isAlpha Char.isUpper Char.isLower Char.isDigit at h
      simp only [Bool.or_eq_true, Bool.and_eq_true, decide_eq_true_eq,
        UInt32.le_iff_toNat_le] at h
      change ((65 ≤ c.toNat ∧ c.toNat ≤ 90) ∨ (97 ≤ c.toNat ∧ c.toNat ≤ 122)) ∨
        (48 ≤ c.toNat ∧ c.toNat ≤ 57) at h
      omega
    exact isPrintable_of_ascii (by omega) (by omega)
  · have hall : Printable "_-;/?:@&=+$,.~*'()[]".toList := .of_all (by decide)
    exact hall c (List.contains_iff_mem.1 h)

theorem printable_tagText (tag : String) : Printable (tagText tag) := by
  refine .cons rfl (.flatMap _ fun c _ => ?_)
  split
  · next h => exact .cons (isPrintable_of_isTagChar h) .nil
  · exact .flatMap _ fun b _ => .cons rfl (printable_hexDigits 2 _)

/-! ## Values -/

theorem printable_scalar (indent : Nat) (n : Node) : Printable (n.scalar indent) := by
  cases n with
  | null => exact .of_all rfl
  | bool b => exact .ite (.of_all rfl) (.of_all rfl)
  | int n => exact printable_int n
  | float bits => exact printable_float bits
  | text s => exact printable_spell indent s
  | seq items => exact .of_all rfl
  | map entries => exact .of_all rfl
  | tagged tag value => exact .nil

theorem printable_gap (p : Place) : Printable p.gap := .ite .nil (.of_all rfl)

theorem printable_start (p : Place) (indent : Nat) : Printable (p.start indent) :=
  .ite (printable_gap p) (.cons rfl (printable_spaces indent))

theorem printable_endLine {s : List Char} (h : Printable s) : Printable (endLine s) :=
  .ite h (h.append (.of_all rfl))

theorem printable_stack (indent : Nat) {pieces : List (List Char)}
    (h : ∀ piece ∈ pieces, Printable piece) : Printable (stack indent pieces) := by
  induction pieces with
  | nil => exact .nil
  | cons piece pieces ih =>
    have hpiece := h piece List.mem_cons_self
    have ih := ih fun p hp => h p (List.mem_cons_of_mem _ hp)
    cases pieces with
    | nil => exact hpiece
    | cons piece' pieces =>
      exact ((printable_endLine hpiece).append (printable_spaces indent)).append ih

theorem printable_gap_scalar (p : Place) (n : Node) :
    Printable (p.gap ++ n.scalar p.scalarIndent) :=
  (printable_gap p).append (printable_scalar _ n)

mutual

/-- A value is printable at every place. -/
theorem printable_layout : (n : Node) → (p : Place) → Printable (n.layout p)
  | .null, p | .bool _, p | .int _, p | .float _, p | .text _, p | .seq [], p | .map [], p =>
    printable_gap_scalar p _
  | .seq (x :: xs), p => by
    unfold Node.layout
    exact (printable_start p _).append (printable_stack _ (printable_items (x :: xs) _))
  | .map (e :: es), p => by
    unfold Node.layout
    exact (printable_start p _).append (printable_stack _ (printable_entries (e :: es) _))
  | .tagged tag v, p => by
    unfold Node.layout
    exact ((printable_gap p).append (printable_tagText tag)).append (printable_layout v _)

theorem printable_items : (items : List Node) → (indent : Nat) →
    ∀ piece ∈ Node.items indent items, Printable piece
  | [], indent => by
    intro piece h
    cases h
  | x :: xs, indent => by
    intro piece h
    unfold Node.items at h
    rcases List.mem_cons.1 h with rfl | h
    · exact .cons rfl (printable_layout x _)
    · exact printable_items xs indent piece h

theorem printable_entries : (entries : List (Node × Node)) → (indent : Nat) →
    ∀ piece ∈ Node.entries indent entries, Printable piece
  | [], indent => by
    intro piece h
    cases h
  | (k, v) :: es, indent => by
    intro piece h
    unfold Node.entries at h
    rcases List.mem_append.1 h with h | h
    · split at h
      · rw [List.mem_singleton.1 h]
        exact ((printable_layout k _).subset (List.drop_subset _ _)).append
          (.cons rfl (printable_layout v _))
      · rcases List.mem_cons.1 h with rfl | h
        · exact .cons rfl (printable_layout k _)
        · rw [List.mem_singleton.1 h]
          exact .cons rfl (printable_layout v _)
    · exact printable_entries es indent piece h

end

/-- Whatever a value holds, its document is printable. -/
theorem printable_document (n : Node) : Printable n.document :=
  printable_endLine (printable_layout n .top)

end StepLog.Yaml
