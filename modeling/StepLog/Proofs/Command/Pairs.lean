/-
  Parameters on the command line, there and back.

  Line feeds are put in from left to right and never overlap, since no escape begins in the middle
  of another. What comes out has no backslash before an `n` any more (`not_infix_unescape`): a
  line feed that was put in is neither of the two, and the characters around it do not
  move together. On such values reading and writing undo each other (`unescape_escape`), and
  writing does not see whether a line feed was read or was there (`escape_unescape`); these two
  facts and the first equals sign say what is read from a text. Main statement:
  `read_by_first_equals`.
-/
import StepLog.Command.Pair
import Mathlib.Data.List.Infix
import Mathlib.Data.List.TakeWhile

namespace StepLog.Command

/-! ## Line feeds -/

theorem escape_cons (c : Char) (s : List Char) :
    escape (c :: s) = (if c = '\n' then ['\\', 'n'] else [c]) ++ escape s := rfl

theorem unescape_cons {c : Char} {s : List Char} (h : c = '\\' → s.head? ≠ some 'n') :
    unescape (c :: s) = c :: unescape s := by
  conv_lhs => unfold unescape
  split
  · next he => cases he
  · next rest he =>
    obtain ⟨rfl, rfl⟩ := List.cons.inj he
    exact absurd rfl (h rfl)
  · next c' rest _ he =>
    obtain ⟨rfl, rfl⟩ := List.cons.inj he
    rfl

/-- An `n` at the front of what was read stood at the front before. -/
theorem head?_unescape {s : List Char} (h : (unescape s).head? = some 'n') :
    s.head? = some 'n' := by
  fun_induction unescape s with
  | case1 => exact h
  | case2 rest ih => cases h
  | case3 c rest hother ih => exact h

theorem head?_escape {s : List Char} (h : (escape s).head? = some 'n') : s.head? = some 'n' := by
  cases s with
  | nil => exact h
  | cons c s =>
    rw [escape_cons] at h
    split at h
    · cases h
    · exact h

/-- A backslash before an `n` is at the front or behind it. -/
theorem escape_infix_cons {c : Char} {s : List Char} :
    ['\\', 'n'] <:+: c :: s ↔ (c = '\\' ∧ s.head? = some 'n') ∨ ['\\', 'n'] <:+: s := by
  rw [List.infix_cons_iff, List.cons_prefix_cons]
  refine or_congr_left (and_congr eq_comm ?_)
  cases s with
  | nil => simp
  | cons d s => simp [eq_comm]

theorem not_infix_unescape (s : List Char) : ¬ ['\\', 'n'] <:+: unescape s := by
  fun_induction unescape s with
  | case1 => decide
  | case2 rest ih =>
    rw [escape_infix_cons]
    rintro (⟨hc, -⟩ | h)
    · cases hc
    · exact ih h
  | case3 c rest hother ih =>
    rw [escape_infix_cons]
    rintro (⟨rfl, hhead⟩ | h)
    · obtain ⟨tail, rfl⟩ := List.head?_eq_some_iff.1 (head?_unescape hhead)
      exact hother tail rfl rfl
    · exact ih h

theorem escape_unescape (s : List Char) : escape (unescape s) = escape s := by
  fun_induction unescape s with
  | case1 => rfl
  | case2 rest ih =>
    show ['\\', 'n'] ++ escape (unescape rest) = '\\' :: 'n' :: escape rest
    rw [ih]
    rfl
  | case3 c rest hother ih => rw [escape_cons, escape_cons, ih]

theorem unescape_escape {s : List Char} (h : ¬ ['\\', 'n'] <:+: s) : unescape (escape s) = s := by
  induction s with
  | nil => rfl
  | cons c s ih =>
    rw [escape_infix_cons, not_or] at h
    rw [escape_cons]
    by_cases hc : c = '\n'
    · rw [if_pos hc, hc]
      show '\n' :: unescape (escape s) = _
      rw [ih h.2]
    · rw [if_neg hc]
      have hfront : c = '\\' → (escape s).head? ≠ some 'n' :=
        fun hslash hhead => h.1 ⟨hslash, head?_escape hhead⟩
      show unescape (c :: escape s) = _
      rw [unescape_cons hfront, ih h.2]

/-- What is read is the value without escapes that is written like the text. -/
theorem unescape_eq_iff {s value : List Char} :
    unescape s = value ↔ ¬ ['\\', 'n'] <:+: value ∧ escape value = escape s := by
  constructor
  · rintro rfl
    exact ⟨not_infix_unescape s, escape_unescape s⟩
  · rintro ⟨hvalue, hescape⟩
    calc unescape s = unescape (escape (unescape s)) :=
          (unescape_escape (not_infix_unescape s)).symm
      _ = unescape (escape value) := by rw [escape_unescape, hescape]
      _ = value := unescape_escape hvalue

/-! ## The first equals sign -/

theorem cutAtEquals_append {key : List Char} (h : '=' ∉ key) (behind : List Char) :
    cutAtEquals (key ++ '=' :: behind) = some (key, behind) := by
  have hkey : ∀ c ∈ key, decide (c ≠ '=') = true :=
    fun c hc => decide_eq_true fun he => h (he ▸ hc)
  unfold cutAtEquals
  rw [List.dropWhile_append_of_pos hkey, List.takeWhile_append_of_pos hkey]
  simp

theorem cutAtEquals_of_not_mem {s : List Char} (h : '=' ∉ s) : cutAtEquals s = none := by
  have hs : s.dropWhile (fun c => decide (c ≠ '=')) = [] :=
    List.dropWhile_eq_nil_iff.2 fun c hc => decide_eq_true fun he => h (he ▸ hc)
  unfold cutAtEquals
  rw [hs]

namespace Pair

theorem read_of_not_mem {text : String} (h : '=' ∉ text.toList) :
    read text = .error (.noEqualsSign text) := by
  unfold read
  rw [cutAtEquals_of_not_mem h]

theorem read_append {key : String} (h : '=' ∉ key.toList) (behind : String) :
    read (key ++ "=" ++ behind) =
      if key = "" then .error (.emptyKey ("=" ++ behind))
      else .ok ⟨key, String.ofList (unescape behind.toList)⟩ := by
  have htext : (key ++ "=" ++ behind).toList = key.toList ++ '=' :: behind.toList := by
    rw [String.toList_append, String.toList_append, List.append_assoc]
    rfl
  unfold read
  rw [htext, cutAtEquals_append h]
  split
  · next he => cases he
  · next value he =>
    obtain ⟨hnil, rfl⟩ := Prod.mk.inj (Option.some.inj he)
    have hempty : key = "" := String.toList_inj.1 hnil
    rw [if_pos hempty, hempty, String.empty_append]
  · next front value hfront he =>
    obtain ⟨rfl, rfl⟩ := Prod.mk.inj (Option.some.inj he)
    have hne : key ≠ "" := fun hempty => hfront (by rw [hempty]; rfl)
    rw [if_neg hne, String.ofList_toList]

/-- Every text has no equals sign, or a first one. -/
theorem exists_first_equals (text : String) :
    '=' ∉ text.toList ∨ ∃ key behind : String, text = key ++ "=" ++ behind ∧ '=' ∉ key.toList := by
  by_cases h : '=' ∈ text.toList
  · obtain ⟨key, behind, htext, hkey⟩ := List.eq_append_cons_of_mem h
    refine .inr ⟨String.ofList key, String.ofList behind, ?_, ?_⟩
    · apply String.toList_inj.1
      rw [String.toList_append, String.toList_append, String.toList_ofList,
        String.toList_ofList (l := behind), htext, List.append_assoc]
      rfl
    · rwa [String.toList_ofList]
  · exact .inl h

theorem read_eq_error_iff (text : String) (fault : PairFault) :
    read text = .error fault ↔
      ('=' ∉ text.toList ∧ fault = .noEqualsSign text) ∨
        (text.toList.head? = some '=' ∧ fault = .emptyKey text) := by
  rcases exists_first_equals text with h | ⟨key, behind, rfl, hkey⟩
  · have hhead : text.toList.head? ≠ some '=' := fun he => h (List.mem_of_mem_head? he)
    rw [read_of_not_mem h]
    constructor
    · rintro ⟨⟩
      exact .inl ⟨h, rfl⟩
    · rintro (⟨-, rfl⟩ | ⟨he, -⟩)
      · rfl
      · exact absurd he hhead
  · have hhead : (key ++ "=" ++ behind).toList.head? = some '=' ↔ key = "" := by
      rw [← String.toList_inj]
      cases hchars : key.toList with
      | nil => simp [hchars]
      | cons c cs =>
        have hc : c ≠ '=' := fun he => hkey (hchars ▸ he ▸ List.mem_cons_self)
        simp [hchars, hc]
    rw [read_append hkey, hhead]
    split
    · next hempty =>
      subst hempty
      simp [eq_comm]
    · next hne => simp [hne]

theorem read_eq_ok_iff (text : String) (p : Pair) :
    read text = .ok p ↔
      p.key ≠ "" ∧ '=' ∉ p.key.toList ∧
        ∃ behind : String, text = p.key ++ "=" ++ behind ∧
          unescape behind.toList = p.value.toList := by
  constructor
  · intro h
    rcases exists_first_equals text with hnone | ⟨key, behind, rfl, hkey⟩
    · cases (read_of_not_mem hnone).symm.trans h
    · rw [read_append hkey] at h
      split at h
      · cases h
      · next hne =>
        cases h
        exact ⟨hne, hkey, behind, rfl, String.toList_ofList.symm⟩
  · rintro ⟨hne, hkey, behind, rfl, hvalue⟩
    rw [read_append hkey, if_neg hne, hvalue, String.ofList_toList]

/-- A text is refused if it has no equals sign or starts with one. Any other text has its first
equals sign behind its key, and the value without escapes that is written like the rest: a value
that is written is read back, and no value with a backslash before an `n` is ever read. -/
theorem read_by_first_equals :
    (∀ text fault, read text = .error fault ↔
      ('=' ∉ text.toList ∧ fault = .noEqualsSign text) ∨
        (text.toList.head? = some '=' ∧ fault = .emptyKey text)) ∧
    (∀ text p, read text = .ok p ↔
      p.key ≠ "" ∧ '=' ∉ p.key.toList ∧ ¬ ['\\', 'n'] <:+: p.value.toList ∧
        ∃ behind : String, text = p.key ++ "=" ++ behind ∧
          escape p.value.toList = escape behind.toList) ∧
    (∀ key value : String, key ≠ "" → '=' ∉ key.toList → ¬ ['\\', 'n'] <:+: value.toList →
      read (key ++ "=" ++ String.ofList (escape value.toList)) = .ok ⟨key, value⟩) ∧
    ∀ value : String, (∃ text key, read text = .ok ⟨key, value⟩) ↔
      ¬ ['\\', 'n'] <:+: value.toList := by
  have hok : ∀ text p, read text = .ok p ↔
      p.key ≠ "" ∧ '=' ∉ p.key.toList ∧ ¬ ['\\', 'n'] <:+: p.value.toList ∧
        ∃ behind : String, text = p.key ++ "=" ++ behind ∧
          escape p.value.toList = escape behind.toList := by
    intro text p
    rw [read_eq_ok_iff]
    simp only [unescape_eq_iff]
    constructor
    · rintro ⟨hne, hkey, behind, htext, hvalue, hescape⟩
      exact ⟨hne, hkey, hvalue, behind, htext, hescape⟩
    · rintro ⟨hne, hkey, hvalue, behind, htext, hescape⟩
      exact ⟨hne, hkey, behind, htext, hvalue, hescape⟩
  have hback : ∀ key value : String, key ≠ "" → '=' ∉ key.toList →
      ¬ ['\\', 'n'] <:+: value.toList →
      read (key ++ "=" ++ String.ofList (escape value.toList)) = .ok ⟨key, value⟩ := by
    intro key value hne hkey hvalue
    refine (read_eq_ok_iff _ _).2 ⟨hne, hkey, _, rfl, ?_⟩
    rw [String.toList_ofList, unescape_escape hvalue]
  refine ⟨read_eq_error_iff, hok, hback, fun value => ⟨?_, fun hvalue => ?_⟩⟩
  · rintro ⟨text, key, h⟩
    exact ((hok _ _).1 h).2.2.1
  · exact ⟨_, "k", hback "k" value (by decide) (by decide) hvalue⟩

/-- Of two backslashes before an `n` the first one stays, and so does a line feed of the text. -/
example : read "k=a\\\\n\nb=\\" = .ok ⟨"k", "a\\\n\nb=\\"⟩ := by decide

end Pair

end StepLog.Command
