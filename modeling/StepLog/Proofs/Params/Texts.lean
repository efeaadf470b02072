/-
  What becomes of the texts of parameters.

  `texts` collects the texts that a value holds. A literal block takes over the text of its
  parameter as it is, and a refusal its reason; everything else in a document is printable.
  So an escape character gets into a document, or into the message in its place, only out of
  one of these texts (`document_clean`).
-/
import StepLog.Params.Document
import StepLog.Proofs.Yaml.Line
import StepLog.Proofs.Yaml.Printable

namespace StepLog

/-! ## Texts -/

mutual

/-- The texts that a value holds, tags and reasons for not being written among them. -/
def Value.texts : Value → List String
  | .null | .bool _ | .int _ | .float _ | .bytes _ => []
  | .text s => [s]
  | .list items => Value.itemTexts items
  | .map entries => Value.entryTexts entries
  | .tagged tag v => tag :: v.texts
  | .failing reason => [reason]

def Value.itemTexts : List Value → List String
  | [] => []
  | x :: xs => x.texts ++ Value.itemTexts xs

def Value.entryTexts : List (Value × Value) → List String
  | [] => []
  | (k, v) :: es => k.texts ++ v.texts ++ Value.entryTexts es

end

/-- The names and the texts of all values. -/
def Params.texts (ps : Params) : List String :=
  ps.entries.flatMap fun e => e.1 :: e.2.texts

/-- None of the texts holds the escape character. -/
def Clean (texts : List String) : Prop := ∀ text ∈ texts, '\x1b' ∉ text.toList

theorem Clean.subset {xs ys : List String} (h : Clean ys) (hs : xs ⊆ ys) : Clean xs :=
  fun text ht => h text (hs ht)

theorem Clean.of_flatMap {α : Type} {f : α → List String} {as : List α} (h : Clean (as.flatMap f))
    {a : α} (ha : a ∈ as) : Clean (f a) :=
  fun text ht => h text (List.mem_flatMap.2 ⟨a, ha, ht⟩)

theorem not_mem_of_printable {s : List Char} (h : Yaml.Printable s) : '\x1b' ∉ s := by
  intro hc
  have e := h _ hc
  cases e

/-! ## Refusals -/

/-- A refusal whose reason, if it has one, is among the texts. -/
def ValueFault.StandsIn (texts : List String) (fault : ValueFault) : Prop :=
  fault = .emptyTag ∨ ∃ reason ∈ texts, fault = .refused reason

theorem ValueFault.StandsIn.mono {xs ys : List String} (hs : xs ⊆ ys) {fault : ValueFault}
    (h : fault.StandsIn xs) : fault.StandsIn ys := by
  rcases h with h | ⟨reason, hr, h⟩
  · exact .inl h
  · exact .inr ⟨reason, hs hr, h⟩

mutual

/-- A value that is not written says so in a text of its own. -/
theorem toNode_error : (v : Value) → {fault : ValueFault} → v.toNode = .error fault →
    fault.StandsIn v.texts
  | .null, _, h | .bool _, _, h | .int _, _, h | .float _, _, h | .text _, _, h
  | .bytes _, _, h => by
    unfold Value.toNode at h
    cases h
  | .list items, fault, h => by
    unfold Value.toNode at h
    rcases bind_error h with h | ⟨nodes, -, h⟩
    · exact itemNodes_error items h
    · cases h
  | .map entries, fault, h => by
    unfold Value.toNode at h
    rcases bind_error h with h | ⟨nodes, -, h⟩
    · exact entryNodes_error entries h
    · cases h
  | .tagged tag v, fault, h => by
    unfold Value.toNode at h
    split at h
    · cases h
      exact .inl rfl
    · rcases bind_error h with h | ⟨node, -, h⟩
      · exact (toNode_error v h).mono (List.subset_cons_self tag v.texts)
      · cases h
  | .failing reason, fault, h => by
    unfold Value.toNode at h
    cases h
    exact .inr ⟨reason, List.mem_singleton.2 rfl, rfl⟩

theorem itemNodes_error : (items : List Value) → {fault : ValueFault} →
    Value.itemNodes items = .error fault → fault.StandsIn (Value.itemTexts items)
  | [], _, h => by
    unfold Value.itemNodes at h
    cases h
  | x :: xs, fault, h => by
    unfold Value.itemNodes at h
    rcases bind_error h with h | ⟨node, -, h⟩
    · exact (toNode_error x h).mono (List.subset_append_left _ _)
    · rcases bind_error h with h | ⟨nodes, -, h⟩
      · exact (itemNodes_error xs h).mono (List.subset_append_right _ _)
      · cases h

theorem entryNodes_error : (entries : List (Value × Value)) →
    {before : List (Yaml.Node × Yaml.Node)} → {fault : ValueFault} →
    Value.entryNodes before entries = .error fault →
    fault.StandsIn (Value.entryTexts entries)
  | [], _, _, h => by
    unfold Value.entryNodes at h
    cases h
  | (k, v) :: es, before, fault, h => by
    unfold Value.entryNodes at h
    unfold Value.entryTexts
    rcases bind_error h with h | ⟨key, -, h⟩
    · refine (toNode_error k h).mono ?_
      rw [List.append_assoc]
      exact List.subset_append_left _ _
    · rcases bind_error h with h | ⟨value, -, h⟩
      · refine (toNode_error v h).mono ?_
        rw [List.append_assoc]
        exact fun text ht => List.mem_append_right _ (List.mem_append_left _ ht)
      · exact (entryNodes_error es h).mono (List.subset_append_right _ _)

end

theorem ValueFault.StandsIn.clean {texts : List String} {fault : ValueFault}
    (h : fault.StandsIn texts) (hc : Clean texts) : '\x1b' ∉ fault.message.toList := by
  rcases h with rfl | ⟨reason, hr, rfl⟩
  · decide
  · exact hc reason hr

theorem openingFault_clean (fault : Yaml.OpeningFault) : '\x1b' ∉ fault.message.toList := by
  cases fault <;> decide

/-- The message of a refusal has an escape character only out of a text of the value. -/
theorem marshalFault_clean {fault : MarshalFault} {texts : List String}
    (h : ∀ f, fault = .value f → f.StandsIn texts) (hc : Clean texts) :
    '\x1b' ∉ fault.message.toList := by
  have hhead : '\x1b' ∉ "failed to marshal builtin: ".toList := by decide
  cases fault with
  | value f =>
    unfold MarshalFault.message
    rw [String.toList_append, List.mem_append, not_or]
    exact ⟨hhead, (h f rfl).clean hc⟩
  | opening f =>
    unfold MarshalFault.message
    rw [String.toList_append, List.mem_append, not_or]
    exact ⟨hhead, openingFault_clean f⟩

/-! ## One parameter -/

namespace Params

theorem printable_keySpelling (name : String) : Yaml.Printable (keySpelling name) := by
  refine (Yaml.printable_document (.text name)).subset ?_
  conv => rhs; rw [← Yaml.trimEnd_append (Yaml.Node.text name).document]
  exact List.subset_append_left _ _

theorem printable_plainEntry (name : String) (node : Yaml.Node) :
    Yaml.Printable (plainEntry name node) := by
  refine .flatMap _ fun line hl => ?_
  have hline := (Yaml.printable_document (.map [(.text name, node)])).subset
    (Text.subset_of_mem_lines hl)
  exact ((Yaml.Printable.of_all rfl).append hline).append (.of_all rfl)

/-- What stands in front of the lines of a block. -/
theorem printable_blockHead (name : String) (text : List Char) : Yaml.Printable
    ("  ".toList ++ keySpelling name ++ ": ".toList ++ blockHeader text ++ ['\n']) :=
  ((((Yaml.Printable.of_all rfl).append (printable_keySpelling name)).append
    (.of_all rfl)).append (.ite (.of_all rfl) (.of_all rfl))).append (.of_all rfl)

/-- The characters of a literal block are printable or those of its text. -/
theorem mem_blockEntry {name : String} {text : List Char} {c : Char}
    (h : c ∈ blockEntry name text) : Yaml.isPrintable c = true ∨ c ∈ text := by
  rcases List.mem_append.1 h with h | h
  · exact .inl (printable_blockHead name text c h)
  · obtain ⟨line, hl, h⟩ := List.mem_flatMap.1 h
    have hmargin : Yaml.Printable "    ".toList := .of_all rfl
    rcases List.mem_append.1 h with h | h
    · split at h
      · cases h
      · rcases List.mem_append.1 h with h | h
        · exact .inl (hmargin c h)
        · exact .inr (Text.subset_of_mem_lines hl h)
    · rw [List.mem_singleton.1 h]
      exact .inl rfl

/-- A value that becomes a text is that text, or an integer too great for anything else. -/
theorem clean_of_toNode_text {v : Value} {s : String} (h : v.toNode = .ok (.text s))
    (hc : Clean v.texts) : '\x1b' ∉ s.toList := by
  cases v with
  | text t =>
    unfold Value.toNode at h
    cases h
    exact hc s (List.mem_singleton.2 rfl)
  | int n =>
    unfold Value.toNode Value.integer at h
    split at h
    · cases h
    · cases h
      exact not_mem_of_printable (Yaml.printable_int n)
  | null | bool b | float bits | bytes b | failing reason =>
    unfold Value.toNode at h
    cases h
  | list items | map entries =>
    unfold Value.toNode at h
    obtain ⟨nodes, -, h⟩ := bind_ok h
    cases h
  | tagged tag v =>
    unfold Value.toNode at h
    split at h
    · cases h
    · obtain ⟨node, -, h⟩ := bind_ok h
      cases h

/-- A text, or the message in its place, without the escape character. -/
def CleanResult : Except MarshalFault (List Char) → Prop
  | .ok text => '\x1b' ∉ text
  | .error fault => '\x1b' ∉ fault.message.toList

theorem entry_clean (name : String) {v : Value} (hc : Clean v.texts) :
    CleanResult (entry name v) := by
  unfold entry
  split
  · next f hf =>
    refine marshalFault_clean (fun f' e => ?_) hc
    cases e
    exact toNode_error v hf
  · next s hs =>
    show '\x1b' ∉ if s.toList.contains '\n' then _ else _
    split
    · intro hmem
      rcases mem_blockEntry hmem with hp | ht
      · cases hp
      · exact clean_of_toNode_text hs hc ht
    · exact not_mem_of_printable (printable_plainEntry name _)
  · split
    · refine marshalFault_clean (fun f' e => ?_) hc
      cases e
    · exact not_mem_of_printable (printable_plainEntry name _)

/-! ## All parameters -/

theorem body_clean {entries : List (String × Value)} (hc : ∀ e ∈ entries, Clean e.2.texts) :
    CleanResult (body entries) := by
  induction entries with
  | nil => exact List.not_mem_nil
  | cons e entries ih =>
    have hentry := entry_clean e.1 (hc e List.mem_cons_self)
    have hbody := ih fun e' he => hc e' (List.mem_cons_of_mem _ he)
    unfold body
    split
    · next hf =>
      rw [hf] at hentry
      exact hentry
    · next hm =>
      rw [hm] at hbody
      exact hbody
    · next front more hf hm =>
      rw [hf] at hentry
      rw [hm] at hbody
      show '\x1b' ∉ front ++ more
      rw [List.mem_append, not_or]
      exact ⟨hentry, hbody⟩

theorem clean_texts {ps : Params} (hc : Clean ps.texts) : ∀ e ∈ ps.entries, Clean e.2.texts := by
  intro e he
  exact (Clean.of_flatMap hc he).subset (List.subset_cons_self e.1 e.2.texts)

/-- A document, or the message in its place, has no escape character if the texts of the
parameters have none. -/
theorem document_clean {ps : Params} (hc : Clean ps.texts) :
    CleanResult (ps.document.map String.toList) := by
  unfold document
  split
  · show '\x1b' ∉ "with: \x7b\x7d\n".toList
    decide
  · have hbody := body_clean (clean_texts hc)
    cases hb : body ps.entries with
    | error fault =>
      rw [hb] at hbody
      exact hbody
    | ok lines =>
      rw [hb] at hbody
      show '\x1b' ∉ ("with:\n" ++ String.ofList lines).toList
      rw [String.toList_append, List.mem_append, not_or]
      refine ⟨by decide, ?_⟩
      rwa [String.toList_ofList]

end Params

end StepLog
