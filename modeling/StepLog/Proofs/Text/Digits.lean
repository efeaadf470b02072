/-
  Digits and their numbers.

  Hexadecimal digits that are written for a number are read back as the number, if they are wide
  enough (`digits?_hexDigits`). Of decimal digits the whole reading is told: a text is read as `n`
  exactly if it spells `n` (`digits?_ten_eq_some_iff`), which is the decimal spelling of `n`
  behind any number of zeros. A reader whose count must not pass a limit reads the same numbers
  up to the limit, and gives up at the first digit that takes it further (`countWithin_eq`).
-/
import StepLog.Text.Characters
import Mathlib.Data.List.Induction

namespace StepLog.Text

theorem digitsValue_concat (base : Nat) (s : List Char) (c : Char) :
    digitsValue base (s ++ [c]) = base * digitsValue base s + digitValue c := by
  unfold digitsValue
  rw [List.foldl_append]
  rfl

/-! ## Hexadecimal digits -/

theorem digitValue_hexDigit (n : Nat) : digitValue (hexDigit n) = n % 16 := by
  have hall : ∀ k < 16, digitValue ("0123456789ABCDEF".toList.getD k '0') = k := by decide
  exact hall _ (Nat.mod_lt _ (by decide))

theorem length_hexDigits (width n : Nat) : (hexDigits width n).length = width := by
  induction width generalizing n with
  | zero => rfl
  | succ width ih =>
    unfold hexDigits
    rw [List.length_append, ih]
    rfl

theorem isDigitIn_of_mem_hexDigits {width n : Nat} {c : Char} (h : c ∈ hexDigits width n) :
    isDigitIn 16 c = true := by
  induction width generalizing n with
  | zero => cases h
  | succ width ih =>
    unfold hexDigits at h
    rcases List.mem_append.1 h with h | h
    · exact ih h
    · rw [List.mem_singleton.1 h]
      unfold isDigitIn
      rw [digitValue_hexDigit]
      exact decide_eq_true (Nat.mod_lt _ (by decide))

theorem digitsValue_hexDigits (width n : Nat) :
    digitsValue 16 (hexDigits width n) = n % Nat.pow 16 width := by
  induction width generalizing n with
  | zero => exact (Nat.mod_one n).symm
  | succ width ih =>
    have hpow : Nat.pow 16 (width + 1) = 16 * Nat.pow 16 width := Nat.mul_comm _ _
    unfold hexDigits
    rw [digitsValue_concat, ih, digitValue_hexDigit, hpow, Nat.mod_mul, Nat.add_comm]

/-- Digits that are wide enough for a number are read back as the number. -/
theorem digits?_hexDigits {width n : Nat} (hwidth : width ≠ 0) (h : n < Nat.pow 16 width) :
    digits? 16 (hexDigits width n) = some n := by
  have hempty : (hexDigits width n).isEmpty = false := by
    rw [List.isEmpty_eq_false_iff, ← List.length_pos_iff, length_hexDigits]
    exact Nat.pos_of_ne_zero hwidth
  have hall : (hexDigits width n).all (isDigitIn 16) = true :=
    List.all_eq_true.2 fun c hc => isDigitIn_of_mem_hexDigits hc
  unfold digits?
  rw [hempty, hall, digitsValue_hexDigits, Nat.mod_eq_of_lt h]
  rfl

/-! ## Decimal digits -/

/-- The decimal spelling of a number, behind any number of zeros. -/
def Spells (digits : List Char) (n : Nat) : Prop :=
  ∃ zeros, digits = List.replicate zeros '0' ++ Nat.toDigits 10 n

theorem isDigitIn_ten (c : Char) : isDigitIn 10 c = c.isDigit := by
  unfold isDigitIn digitValue
  cases hc : c.isDigit with
  | true =>
    have hle := (Char.isDigit_iff_toNat.1 hc).2
    have hnine : '9'.toNat = 57 := rfl
    have hzero : '0'.toNat = 48 := rfl
    rw [if_pos rfl, decide_eq_true_iff]
    omega
  | false =>
    rw [if_neg nofun, decide_eq_false_iff_not]
    split
    · omega
    · split <;> omega

/-- A decimal digit is the spelling of its value. -/
theorem toDigits_digitValue {c : Char} (h : c.isDigit = true) :
    digitValue c < 10 ∧ Nat.toDigits 10 (digitValue c) = [c] := by
  have hvalue : digitValue c = c.toNat - '0'.toNat := if_pos h
  have hlt : digitValue c < 10 := of_decide_eq_true ((isDigitIn_ten c).trans h)
  have hall : ∀ k < 10, k.digitChar.toNat = '0'.toNat + k := by decide
  have hchar : (digitValue c).digitChar = c := by
    refine Char.toNat_inj.1 ?_
    rw [hall _ hlt, hvalue]
    exact Nat.add_sub_cancel' (Char.isDigit_iff_toNat.1 h).1
  exact ⟨hlt, by rw [Nat.toDigits_of_lt_base hlt, hchar]⟩

/-- Digits spell the number that they stand for. -/
theorem spells_digitsValue {digits : List Char} (hne : digits ≠ [])
    (h : ∀ c ∈ digits, c.isDigit = true) : Spells digits (digitsValue 10 digits) := by
  induction digits using List.reverseRecOn with
  | nil => exact absurd rfl hne
  | append_singleton digits c ih =>
    obtain ⟨hlt, hc⟩ := toDigits_digitValue (h c (by simp))
    rw [digitsValue_concat]
    by_cases hfirst : digits = []
    · subst hfirst
      refine ⟨0, ?_⟩
      rw [show digitsValue 10 [] = 0 from rfl, Nat.mul_zero, Nat.zero_add, hc]
      rfl
    · obtain ⟨zeros, hzeros⟩ := ih hfirst fun d hd => h d (List.mem_append_left _ hd)
      by_cases hvalue : digitsValue 10 digits = 0
      · -- Nothing but zeros so far, so they all stand in front of the last digit.
        refine ⟨zeros + 1, ?_⟩
        rw [hvalue] at hzeros ⊢
        rw [hzeros, Nat.mul_zero, Nat.zero_add, hc, List.replicate_succ']
        rfl
      · refine ⟨zeros, ?_⟩
        rw [← Nat.toDigits_append_toDigits (by decide) (Nat.pos_of_ne_zero hvalue) hlt, hc,
          ← List.append_assoc, ← hzeros]

theorem Spells.isDigit {digits : List Char} {n : Nat} (h : Spells digits n) :
    ∀ c ∈ digits, c.isDigit = true := by
  obtain ⟨zeros, rfl⟩ := h
  intro c hc
  rcases List.mem_append.1 hc with hc | hc
  · rw [List.eq_of_mem_replicate hc]
    rfl
  · exact Nat.isDigit_of_mem_toDigits (by decide) (by decide) hc

theorem Spells.ne_nil {digits : List Char} {n : Nat} (h : Spells digits n) : digits ≠ [] := by
  obtain ⟨zeros, rfl⟩ := h
  exact List.append_ne_nil_of_right_ne_nil _ Nat.toDigits_ne_nil

theorem digitsValue_ten {digits : List Char} (h : ∀ c ∈ digits, c.isDigit = true) :
    digitsValue 10 digits = Nat.ofDigitChars 10 digits 0 := by
  induction digits using List.reverseRecOn with
  | nil => rfl
  | append_singleton digits c ih =>
    rw [digitsValue_concat, ih fun d hd => h d (List.mem_append_left _ hd),
      Nat.ofDigitChars_append, Nat.ofDigitChars_cons, digitValue, if_pos (h c (by simp))]
    rfl

theorem Spells.value {digits : List Char} {n : Nat} (h : Spells digits n) :
    digitsValue 10 digits = n := by
  rw [digitsValue_ten h.isDigit]
  obtain ⟨zeros, rfl⟩ := h
  have hzeros : Nat.ofDigitChars 10 (List.replicate zeros '0') 0 = 0 := by
    induction zeros with
    | zero => rfl
    | succ zeros ih => exact ih
  rw [Nat.ofDigitChars_append, hzeros, Nat.ofDigitChars_ten_toDigits]

theorem digits?_ten_eq_some_iff {s : List Char} {n : Nat} :
    digits? 10 s = some n ↔ Spells s n := by
  unfold digits?
  constructor
  · intro h
    split at h
    · next hdigits =>
      rw [Bool.and_eq_true, Bool.not_eq_true', List.isEmpty_eq_false_iff, List.all_eq_true]
        at hdigits
      rw [← Option.some.inj h]
      exact spells_digitsValue hdigits.1 fun c hc => isDigitIn_ten c ▸ hdigits.2 c hc
    · cases h
  · intro h
    have hdigits : (!s.isEmpty && s.all (isDigitIn 10)) = true := by
      rw [Bool.and_eq_true, Bool.not_eq_true', List.isEmpty_eq_false_iff, List.all_eq_true]
      exact ⟨h.ne_nil, fun c hc => (isDigitIn_ten c).trans (h.isDigit c hc)⟩
    rw [if_pos hdigits, h.value]

/-! ## Counts with a limit -/

/-- The number of decimal digits behind others that stand for `count`, unless a digit takes the
count past the limit. -/
def countWithin (limit count : Nat) : List Char → Option Nat
  | [] => some count
  | c :: cs =>
    if c.isDigit && 10 * count + digitValue c ≤ limit then
      countWithin limit (10 * count + digitValue c) cs
    else none

theorem le_foldl_digits (count : Nat) (s : List Char) :
    count ≤ s.foldl (fun n c => 10 * n + digitValue c) count := by
  induction s generalizing count with
  | nil => exact Nat.le_refl count
  | cons c cs ih =>
    have hstep : count ≤ 10 * count + digitValue c := by omega
    exact Nat.le_trans hstep (ih _)

/-- A count that has passed the limit never comes back below it. -/
theorem countWithin_eq {limit count : Nat} (h : count ≤ limit) (s : List Char) :
    countWithin limit count s =
      if s.all Char.isDigit then
        (some (s.foldl (fun n c => 10 * n + digitValue c) count)).filter (· ≤ limit)
      else none := by
  induction s generalizing count with
  | nil =>
    rw [countWithin, List.all_nil, if_pos rfl, List.foldl_nil,
      Option.filter_some_pos (by simpa using h)]
  | cons c cs ih =>
    rw [countWithin, List.all_cons, List.foldl_cons]
    cases hc : c.isDigit with
    | false => rfl
    | true =>
      by_cases hle : 10 * count + digitValue c ≤ limit
      · rw [decide_eq_true hle, Bool.and_self, if_pos rfl, ih hle, Bool.true_and]
      · have hpassed : ¬ cs.foldl (fun n c => 10 * n + digitValue c) (10 * count + digitValue c)
            ≤ limit := fun h' => hle (Nat.le_trans (le_foldl_digits _ cs) h')
        rw [decide_eq_false hle, Bool.and_false, if_neg nofun,
          Option.filter_some_neg (by simpa using hpassed), ite_self]

theorem countWithin_zero (limit : Nat) {s : List Char} (hne : s ≠ []) :
    countWithin limit 0 s = (digits? 10 s).filter (· ≤ limit) := by
  have hall : s.all (isDigitIn 10) = s.all Char.isDigit :=
    congrArg s.all (funext isDigitIn_ten)
  rw [countWithin_eq (Nat.zero_le limit), digits?, List.isEmpty_eq_false_iff.2 hne, hall]
  cases s.all Char.isDigit with
  | false => rfl
  | true => rfl

end StepLog.Text
