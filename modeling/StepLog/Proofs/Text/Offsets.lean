/-
  A text, its bytes and byte offsets.

  A reader that goes through a text byte by byte holds offsets, and may cut the text only where
  a character ends. `cut` and `slice` refuse every other offset, `minus` a count below zero, and
  a `Walk` ends there. The offsets that `cut` takes are the positions of the text
  (`exists_cut_iff`).

  A byte is looked at as the character of its number (`byteAt`). The first byte of a character
  then looks like the character to everything that is asked about ASCII characters (`Alike`),
  and the bytes behind it like no ASCII character, so a reader that steps over bytes of that
  kind comes from one character to the next (`walk_char`).
-/
import StepLog.Proofs.Cutting

namespace StepLog.Text

/-! ## Walks -/

/-- What a reader of bytes must not come to. -/
inductive Misstep
  /-- A cut inside a character or past the end. -/
  | cut
  /-- A count below zero. -/
  | below
  /-- A step that stays where it is, or one past the end. -/
  | stuck
deriving DecidableEq

abbrev Walk := Except Misstep

def minus (m n : Nat) : Walk Nat := if n ≤ m then .ok (m - n) else .error .below

/-- The text in front of an offset and the text behind it. -/
def cut : List Char → Nat → Walk (List Char × List Char)
  | s, 0 => .ok ([], s)
  | [], _ + 1 => .error .cut
  | c :: cs, n + 1 =>
    if c.utf8Size ≤ n + 1 then do
      let parts ← cut cs (n + 1 - c.utf8Size)
      return (c :: parts.1, parts.2)
    else .error .cut

/-- The text from one offset up to another. -/
def slice (s : List Char) (start stop : Nat) : Walk (List Char) := do
  let upTo ← cut s stop
  let parts ← cut upTo.1 start
  return parts.2

theorem ok_bind {α β : Type} (a : α) (f : α → Walk β) : (Except.ok a >>= f) = f a := rfl

/-! ## Lengths in bytes -/

theorem byteLength_append (s t : List Char) :
    byteLength (s ++ t) = byteLength s + byteLength t := by
  induction s with
  | nil => rw [byteLength, Nat.zero_add, List.nil_append]
  | cons c cs ih => rw [List.cons_append, byteLength, byteLength, ih, Nat.add_assoc]

theorem byteLength_concat (s : List Char) (c : Char) :
    byteLength (s ++ [c]) = byteLength s + c.utf8Size := byteLength_append s [c]

/-- A character of ASCII has one byte. -/
theorem utf8Size_eq_one {c : Char} (h : c.toNat < 128) : c.utf8Size = 1 := by
  rw [Char.utf8Size_eq_one_iff, UInt32.le_iff_toNat_le]
  exact Nat.le_of_lt_succ h

theorem byteLength_concat_ascii (s : List Char) {c : Char} (h : c.toNat < 128) :
    byteLength (s ++ [c]) = byteLength s + 1 := by
  rw [byteLength_concat, utf8Size_eq_one h]

theorem byteLength_eq_length {s : List Char} (h : ∀ c ∈ s, c.toNat < 128) :
    byteLength s = s.length := by
  induction s with
  | nil => rfl
  | cons c cs ih =>
    rw [byteLength, utf8Size_eq_one (h c List.mem_cons_self),
      ih fun d hd => h d (List.mem_cons_of_mem c hd), List.length_cons, Nat.add_comm]

theorem byteLength_lt_append (s : List Char) {t : List Char} (h : t ≠ []) :
    byteLength s < byteLength (s ++ t) := by
  obtain ⟨c, cs, rfl⟩ := List.exists_cons_of_ne_nil h
  have := c.utf8Size_pos
  rw [byteLength_append, byteLength]
  omega

theorem byteLength_toList (s : String) : byteLength s.toList = s.utf8ByteSize := by
  rw [← utf8ByteSize_ofList, String.ofList_toList]

/-! ## Cuts -/

theorem cut_append (front back : List Char) :
    cut (front ++ back) (byteLength front) = .ok (front, back) := by
  induction front with
  | nil =>
    rw [List.nil_append, byteLength]
    cases back <;> rfl
  | cons c cs ih =>
    have hpos := c.utf8Size_pos
    obtain ⟨n, hn⟩ : ∃ n, byteLength (c :: cs) = n + 1 :=
      Nat.exists_eq_add_one_of_ne_zero (by rw [byteLength]; omega)
    have hle : c.utf8Size ≤ n + 1 := by
      rw [byteLength] at hn
      omega
    have hrest : n + 1 - c.utf8Size = byteLength cs := by
      rw [byteLength] at hn
      omega
    rw [hn, List.cons_append, cut, if_pos hle, hrest, ih]
    rfl

/-- A cut behind an ASCII character. -/
theorem cut_behind (front : List Char) {x : Char} (hx : x.toNat < 128) (back : List Char) :
    cut (front ++ x :: back) (byteLength front + 1) = .ok (front ++ [x], back) := by
  rw [← byteLength_concat_ascii front hx, List.append_cons, cut_append]

theorem append_of_cut {s : List Char} {n : Nat} {parts : List Char × List Char}
    (h : cut s n = .ok parts) : s = parts.1 ++ parts.2 ∧ byteLength parts.1 = n := by
  fun_induction cut s n generalizing parts with
  | case1 s =>
    cases h
    exact ⟨rfl, rfl⟩
  | case2 => cases h
  | case3 c cs n hc ih =>
    obtain ⟨parts', hparts, he⟩ := bind_ok h
    cases he
    obtain ⟨hs, hn⟩ := ih hparts
    refine ⟨congrArg (c :: ·) hs, ?_⟩
    show c.utf8Size + byteLength parts'.1 = n + 1
    omega
  | case4 => cases h

/-- A text can be cut exactly at its positions: where a character begins, or at the end. -/
theorem exists_cut_iff (s : String) (n : Nat) :
    (∃ parts, cut s.toList n = .ok parts) ↔ (⟨n⟩ : String.Pos.Raw).IsValid s := by
  rw [String.Pos.Raw.isValid_iff_exists_append]
  constructor
  · rintro ⟨parts, h⟩
    obtain ⟨hs, hn⟩ := append_of_cut h
    refine ⟨String.ofList parts.1, String.ofList parts.2, ?_, ?_⟩
    · rw [← String.ofList_append, ← hs, String.ofList_toList]
    · apply String.Pos.Raw.ext
      show n = (String.ofList parts.1).utf8ByteSize
      rw [utf8ByteSize_ofList, hn]
  · rintro ⟨front, back, rfl, h⟩
    have hn : n = byteLength front.toList := by
      rw [byteLength_toList]
      exact congrArg String.Pos.Raw.byteIdx h
    rw [hn, String.toList_append]
    exact ⟨_, cut_append _ _⟩

example : cut "né!".toList 2 = .error .cut := rfl

theorem slice_append {s front part back : List Char} (e : s = front ++ (part ++ back)) :
    slice s (byteLength front) (byteLength (front ++ part)) = .ok part := by
  rw [e, ← List.append_assoc, slice, cut_append, ok_bind, cut_append]
  rfl

/-! ## Bytes -/

/-- The bytes of a text. -/
def bytesOf (s : List Char) : Bytes := s.flatMap String.utf8EncodeChar

/-- The byte at an offset, as the character of the same number. -/
def byteAt (s : List Char) (pos : Nat) : Option Char := (bytesOf s)[pos]?.map Char.ofUInt8

theorem length_bytesOf (s : List Char) : (bytesOf s).length = byteLength s := by
  induction s with
  | nil => rfl
  | cons c cs ih =>
    show (String.utf8EncodeChar c ++ bytesOf cs).length = c.utf8Size + byteLength cs
    rw [List.length_append, ih, String.length_utf8EncodeChar]

theorem lt_of_byteAt {s : List Char} {pos : Nat} {b : Char} (h : byteAt s pos = some b) :
    pos < byteLength s := by
  obtain ⟨_, hbyte, -⟩ := Option.map_eq_some_iff.1 h
  rw [← length_bytesOf]
  exact (List.getElem?_eq_some_iff.1 hbyte).1

theorem byteAt_end (s : List Char) : byteAt s (byteLength s) = none := by
  unfold byteAt
  rw [← length_bytesOf, List.getElem?_eq_none (Nat.le_refl _)]
  rfl

/-- A test that only ASCII characters pass. -/
def AsciiOnly (test : Char → Bool) : Prop := ∀ c, test c = true → c.toNat < 128

namespace AsciiOnly

theorem eq_char {x : Char} (hx : x.toNat < 128) : AsciiOnly (· = x) := by
  intro c hc
  rw [of_decide_eq_true hc]
  exact hx

theorem elem {xs : List Char} (h : xs.all (·.toNat < 128) = true) : AsciiOnly xs.contains := by
  intro c hc
  exact of_decide_eq_true (List.all_eq_true.1 h c (List.contains_iff_mem.1 hc))

theorem or {test test' : Char → Bool} (h : AsciiOnly test) (h' : AsciiOnly test') :
    AsciiOnly (fun c => test c || test' c) := by
  intro c hc
  rcases Bool.or_eq_true_iff.1 hc with hc | hc
  · exact h c hc
  · exact h' c hc

theorem isDigit : AsciiOnly Char.isDigit := by
  intro c hc
  have hle := (Char.isDigit_iff_toNat.1 hc).2
  exact Nat.lt_of_le_of_lt hle (by decide)

theorem isAlpha : AsciiOnly Char.isAlpha := by
  intro c hc
  rcases Bool.or_eq_true_iff.1 hc with hc | hc
  · have hle : c.val ≤ 'Z'.val := (of_decide_eq_true hc).2
    exact Nat.lt_of_le_of_lt (UInt32.le_iff_toNat_le.1 hle) (by decide)
  · have hle : c.val ≤ 'z'.val := of_decide_eq_true (Bool.and_eq_true_iff.1 hc).2
    exact Nat.lt_of_le_of_lt (UInt32.le_iff_toNat_le.1 hle) (by decide)

end AsciiOnly

/-- A byte and the character that begins with it: the same, or neither is an ASCII character. -/
def Alike (b c : Char) : Prop := b = c ∨ (128 ≤ b.toNat ∧ 128 ≤ c.toNat)

namespace Alike

variable {b c : Char}

theorem eq_iff (h : Alike b c) {x : Char} (hx : x.toNat < 128) : b = x ↔ c = x := by
  rcases h with rfl | ⟨hb, hc⟩
  · exact Iff.rfl
  · constructor
    · rintro rfl
      omega
    · rintro rfl
      omega

theorem test_eq (h : Alike b c) {test : Char → Bool} (htest : AsciiOnly test) :
    test b = test c := by
  have hfalse : ∀ x : Char, 128 ≤ x.toNat → test x = false := by
    intro x hx
    rw [Bool.eq_false_iff]
    intro e
    have := htest x e
    omega
  rcases h with rfl | ⟨hb, hc⟩
  · rfl
  · rw [hfalse b hb, hfalse c hc]

end Alike

/-- A character that is not of ASCII has no byte of an ASCII character. -/
theorem le_of_mem_utf8EncodeChar {c : Char} (hc : 128 ≤ c.toNat) {x : UInt8}
    (hx : x ∈ String.utf8EncodeChar c) : 128 ≤ x.toNat := by
  have hlow : ∀ n : Nat, 128 ≤ n → n < 256 → 128 ≤ (UInt8.ofNat n).toNat := by
    intro n hn hn'
    rw [UInt8.toNat_ofNat', Nat.mod_eq_of_lt hn']
    exact hn
  have hval : ¬ c.val.toNat ≤ 127 := Nat.not_le.2 hc
  unfold String.utf8EncodeChar at hx
  dsimp only at hx
  rw [if_neg hval] at hx
  split at hx
  · simp only [List.mem_cons, List.not_mem_nil, or_false] at hx
    rcases hx with rfl | rfl <;> exact hlow _ (by omega) (by omega)
  · split at hx
    · simp only [List.mem_cons, List.not_mem_nil, or_false] at hx
      rcases hx with rfl | rfl | rfl <;> exact hlow _ (by omega) (by omega)
    · simp only [List.mem_cons, List.not_mem_nil, or_false] at hx
      rcases hx with rfl | rfl | rfl | rfl <;> exact hlow _ (by omega) (by omega)

theorem utf8EncodeChar_of_ascii {c : Char} (hc : c.toNat < 128) :
    String.utf8EncodeChar c = [UInt8.ofNat c.toNat] := by
  have hval : c.val.toNat ≤ 127 := Nat.le_of_lt_succ hc
  unfold String.utf8EncodeChar
  dsimp only
  rw [if_pos hval]
  rfl

/-- A byte of the character that stands behind `front`. -/
theorem byteAt_append (front : List Char) (c : Char) (cs : List Char) {k : Nat}
    (hk : k < c.utf8Size) :
    byteAt (front ++ c :: cs) (byteLength front + k) =
      (String.utf8EncodeChar c)[k]?.map Char.ofUInt8 := by
  have hlen : k < (String.utf8EncodeChar c).length := by rwa [String.length_utf8EncodeChar]
  unfold byteAt bytesOf
  rw [List.flatMap_append, List.flatMap_cons, List.getElem?_append_right (by
    rw [← length_bytesOf]
    exact Nat.le_add_right _ _)]
  show Option.map _ (String.utf8EncodeChar c ++ _)[byteLength front + k - (bytesOf front).length]? = _
  rw [length_bytesOf, Nat.add_sub_cancel_left, List.getElem?_append_left hlen]

/-- Every byte of a character that is not of ASCII looks like none of ASCII. -/
theorem byteAt_wide {text front : List Char} {c : Char} {cs : List Char} (hc : 128 ≤ c.toNat)
    (e : text = front ++ c :: cs) {k : Nat} (hk : k < c.utf8Size) :
    ∃ b, byteAt text (byteLength front + k) = some b ∧ 128 ≤ b.toNat := by
  have hlen : k < (String.utf8EncodeChar c).length := by rwa [String.length_utf8EncodeChar]
  have h := byteAt_append front c cs hk
  rw [← e, List.getElem?_eq_getElem hlen] at h
  exact ⟨_, h, le_of_mem_utf8EncodeChar hc (List.getElem_mem hlen)⟩

/-- The first byte of a character is like it. -/
theorem byteAt_front {text front : List Char} {c : Char} {cs : List Char}
    (e : text = front ++ c :: cs) : ∃ b, byteAt text (byteLength front) = some b ∧ Alike b c := by
  by_cases hc : c.toNat < 128
  · have h := byteAt_append front c cs c.utf8Size_pos
    rw [Nat.add_zero, ← e, utf8EncodeChar_of_ascii hc] at h
    refine ⟨c, ?_, .inl rfl⟩
    rw [h]
    refine congrArg some (Char.toNat_inj.1 ?_)
    show (UInt8.ofNat c.toNat).toNat = c.toNat
    rw [UInt8.toNat_ofNat', Nat.mod_eq_of_lt (by omega)]
  · obtain ⟨b, hb, hle⟩ := byteAt_wide (Nat.not_lt.1 hc) e c.utf8Size_pos
    exact ⟨b, hb, .inr ⟨hle, Nat.not_lt.1 hc⟩⟩

/-- The byte in front of an offset tells the character of ASCII that stands there. -/
theorem byteAt_before {text front rest : List Char} {x : Char} (hx : x.toNat < 128)
    (e : text = front ++ rest) :
    0 < byteLength front ∧ byteAt text (byteLength front - 1) = some x ↔
      front.getLast? = some x := by
  rcases List.eq_nil_or_concat front with rfl | ⟨init, d, rfl⟩
  · simp [byteLength]
  · rw [List.concat_eq_append] at e ⊢
    rw [List.append_assoc] at e
    have hpos := d.utf8Size_pos
    have hlen := byteLength_concat init d
    rw [List.getLast?_concat, Option.some.injEq]
    by_cases hd : d.toNat < 128
    · obtain ⟨b, hb, hlike⟩ := byteAt_front e
      obtain rfl : b = d := (hlike.eq_iff hd).2 rfl
      have hat : byteLength (init ++ [b]) - 1 = byteLength init := by
        rw [byteLength_concat_ascii init hd, Nat.add_sub_cancel]
      rw [hat, hb, Option.some.injEq]
      exact and_iff_right (by omega)
    · obtain ⟨b, hb, hle⟩ := byteAt_wide (Nat.not_lt.1 hd) e (show d.utf8Size - 1 < _ by omega)
      have hat : byteLength (init ++ [d]) - 1 = byteLength init + (d.utf8Size - 1) := by omega
      rw [hat, hb, Option.some.injEq]
      constructor
      · rintro ⟨-, rfl⟩
        omega
      · rintro rfl
        exact absurd hx hd

/-- What goes over bytes that are not ASCII one by one comes from behind the first byte of a
character to behind its last one. -/
theorem walk_char {α : Type} {f : Nat → α} {text front : List Char} {c : Char} {cs : List Char}
    (e : text = front ++ c :: cs)
    (h : ∀ pos b, byteAt text pos = some b → 128 ≤ b.toNat → f pos = f (pos + 1)) :
    f (byteLength front + 1) = f (byteLength (front ++ [c])) := by
  have hinside : ∀ k, k + 1 ≤ c.utf8Size →
      f (byteLength front + 1) = f (byteLength front + (k + 1)) := by
    intro k
    induction k with
    | zero => exact fun _ => rfl
    | succ k ih =>
      intro hk
      -- The character has a second byte, so it is not of ASCII.
      have hc : 128 ≤ c.toNat := by
        have hsize : c.utf8Size ≠ 1 := by omega
        rw [ne_eq, Char.utf8Size_eq_one_iff, UInt32.le_iff_toNat_le] at hsize
        exact Nat.not_le.1 hsize
      obtain ⟨b, hb, hle⟩ := byteAt_wide hc e hk
      rw [ih (by omega)]
      exact h _ b hb hle
  have hpos := c.utf8Size_pos
  have hlast := hinside (c.utf8Size - 1) (by omega)
  rw [byteLength_concat, hlast]
  congr 1
  omega

end StepLog.Text
