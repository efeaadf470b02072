/-
  Parameters, entry by entry.

  Parameters that are set one after the other keep the place where their name came first and
  the value that came last (`settled_ofList`). Their document is put together from chunks, and
  the chunk of an entry is what a document shows of it that has no other entry: either every
  entry has one, or the document has the fault of the first that has none (`written_document`).

  Main statement: so it is for every list of names and values, and printing it makes one call,
  with the whole document or with the warning (`params_by_entries`).
-/
import Mathlib.Data.List.Induction
import StepLog.Proofs.Params.LineStarts
import StepLog.Proofs.Printer.Calls
import StepLog.Proofs.Session.AnySink
import StepLog.Proofs.Yaml.Lossless

namespace StepLog

open Style

namespace Params

variable {name : String} {value : Value} {es : List (String × Value)}

/-! ## Names and values -/

/-- The entries have the names of the pairs in the order in which they come first, and each the
last value of its name. -/
structure Settled (pairs entries : List (String × Value)) : Prop where
  names : entries.map Prod.fst = (pairs.map Prod.fst).eraseDups
  last : ∀ e ∈ entries, ∃ before after, pairs = before ++ e :: after ∧ ∀ e' ∈ after, e'.1 ≠ e.1

/-- An entry is the new one, or one under another name. -/
theorem mem_assign (h : (es.map Prod.fst).Nodup) {e : String × Value}
    (he : e ∈ assign name value es) : e = (name, value) ∨ e ∈ es ∧ e.1 ≠ name := by
  induction es with
  | nil => exact .inl (List.mem_singleton.1 he)
  | cons e₀ es ih =>
    obtain ⟨n, v⟩ := e₀
    obtain ⟨hn, hes⟩ := List.nodup_cons.1 h
    unfold assign at he
    split at he
    · next heq =>
      rcases List.mem_cons.1 he with rfl | hmem
      · exact .inl (by rw [heq])
      · refine .inr ⟨List.mem_cons_of_mem _ hmem, fun hname => hn ?_⟩
        exact List.mem_map.2 ⟨e, hmem, hname.trans heq.symm⟩
    · next hne =>
      rcases List.mem_cons.1 he with rfl | hmem
      · exact .inr ⟨List.mem_cons_self, hne⟩
      · exact (ih hes hmem).imp_right (And.imp_left (List.mem_cons_of_mem _))

theorem entries_ofList_append (pairs : List (String × Value)) (name : String) (value : Value) :
    (ofList (pairs ++ [(name, value)])).entries = assign name value (ofList pairs).entries := by
  unfold ofList
  rw [List.foldl_append]
  rfl

/-- Setting one more parameter. -/
theorem Settled.append {pairs : List (String × Value)} (h : Settled pairs es)
    (hn : (es.map Prod.fst).Nodup) (name : String) (value : Value) :
    Settled (pairs ++ [(name, value)]) (assign name value es) where
  names := by
    have hmem : name ∈ es.map Prod.fst ↔ name ∈ pairs.map Prod.fst := by
      rw [h.names, List.mem_eraseDups]
    rw [names_assign, List.map_append, List.eraseDups_append, ← h.names]
    split
    · next hold => simp [List.removeAll, hmem.1 hold]
    · next hnew => simp [List.removeAll, mt hmem.2 hnew, List.eraseDups_cons]
  last e he := by
    rcases mem_assign hn he with rfl | ⟨hold, hname⟩
    · exact ⟨pairs, [], rfl, nofun⟩
    · obtain ⟨before, after, rfl, hafter⟩ := h.last e hold
      refine ⟨before, after ++ [(name, value)], by simp, List.forall_mem_append.2 ⟨hafter, ?_⟩⟩
      exact List.forall_mem_singleton.2 (Ne.symm hname)

theorem settled_ofList (pairs : List (String × Value)) : Settled pairs (ofList pairs).entries := by
  induction pairs using List.reverseRecOn with
  | nil => exact ⟨rfl, nofun⟩
  | append_singleton pairs e ih =>
    rw [entries_ofList_append]
    exact ih.append (ofList pairs).nodup e.1 e.2

/-! ## Chunks -/

/-- What a document shows of an entry that is its only one. -/
def IsChunk (e : String × Value) (chunk : String) : Prop :=
  (ofList [e]).document = .ok ("with:\n" ++ chunk)

/-- How a document comes of its entries: all of them, or the first fault. -/
inductive Written : List (String × Value) → Except MarshalFault String → Prop
  | nothing : Written [] (.ok "with: \x7b\x7d\n")
  | all {entries chunks} : entries ≠ [] → List.Forall₂ IsChunk entries chunks →
    Written entries (.ok ("with:\n" ++ String.join chunks))
  | fault {before e after fault} : (∀ e' ∈ before, ∃ chunk, IsChunk e' chunk) →
    (ofList [e]).document = .error fault → Written (before ++ e :: after) (.error fault)

theorem document_singleton (e : String × Value) :
    (ofList [e]).document =
      (entry e.1 e.2).map fun lines => "with:\n" ++ String.ofList lines := by
  show (body [e]).map _ = _
  unfold body body
  cases entry e.1 e.2 with
  | error fault => rfl
  | ok lines =>
    show Except.ok ("with:\n" ++ String.ofList (lines ++ [])) = _
    rw [List.append_nil]
    rfl

theorem isChunk_entry {e : String × Value} {lines : List Char} (h : entry e.1 e.2 = .ok lines) :
    IsChunk e (String.ofList lines) := by
  unfold IsChunk
  rw [document_singleton, h]
  rfl

/-- Lines of entries are their chunks put together. -/
theorem chunks_of_body {lines : List Char} (h : body es = .ok lines) :
    ∃ chunks, List.Forall₂ IsChunk es chunks ∧ String.ofList lines = String.join chunks := by
  induction es generalizing lines with
  | nil =>
    cases h
    exact ⟨[], .nil, rfl⟩
  | cons e es ih =>
    unfold body at h
    split at h
    · cases h
    · cases h
    · next hentry hbody =>
      cases h
      obtain ⟨chunks, hchunks, hjoin⟩ := ih hbody
      refine ⟨_ :: chunks, .cons (isChunk_entry hentry) hchunks, ?_⟩
      rw [String.ofList_append, hjoin, String.join_cons]

/-- A fault of entries is the fault of one of them, and those before it have chunks. -/
theorem split_of_body {fault : MarshalFault} (h : body es = .error fault) :
    ∃ before e after, es = before ++ e :: after ∧ (∀ e' ∈ before, ∃ chunk, IsChunk e' chunk) ∧
      (ofList [e]).document = .error fault := by
  induction es with
  | nil => cases h
  | cons e es ih =>
    unfold body at h
    split at h
    · next hentry =>
      cases h
      refine ⟨[], e, es, rfl, nofun, ?_⟩
      rw [document_singleton, hentry]
      rfl
    · next hentry hbody =>
      cases h
      obtain ⟨before, e₁, after, rfl, hbefore, hfault⟩ := ih hbody
      exact ⟨e :: before, e₁, after, rfl,
        List.forall_mem_cons.2 ⟨⟨_, isChunk_entry hentry⟩, hbefore⟩, hfault⟩
    · cases h

theorem written_document (ps : Params) : Written ps.entries ps.document := by
  unfold document
  split
  · next hempty =>
    rw [List.isEmpty_iff.1 hempty]
    exact .nothing
  · next hne =>
    cases hbody : body ps.entries with
    | ok lines =>
      obtain ⟨chunks, hchunks, hjoin⟩ := chunks_of_body hbody
      show Written ps.entries (.ok ("with:\n" ++ String.ofList lines))
      rw [hjoin]
      exact .all (fun e => hne (List.isEmpty_iff.2 e)) hchunks
    | error fault =>
      obtain ⟨before, e, after, hentries, hbefore, hfault⟩ := split_of_body hbody
      show Written ps.entries (.error fault)
      rw [hentries]
      exact .fault hbefore hfault

/-- The first fault is the fault of the document, and there is no text. -/
example : (ofList [("a", .int 1), ("b", .failing "no"), ("c", .failing "later")]).document =
    .error (.value (.refused "no")) := rfl

/-! ## Whole lines -/

/-- An entry is written in whole lines. -/
theorem freshAfter_entry {name : String} {value : Value} {lines : List Char}
    (h : entry name value = .ok lines) : freshAfter true lines = true := by
  rcases entry_cases h with ⟨text, rfl⟩ | ⟨node, rfl⟩
  · unfold blockEntry literalBlock
    rw [freshAfter_append, freshAfter_lineFeed]
    exact freshAfter_flatMap fun line _ => freshAfter_lineFeed true _
  · exact freshAfter_flatMap fun line _ => freshAfter_lineFeed true _

theorem freshAfter_body {lines : List Char} (h : body es = .ok lines) :
    freshAfter true lines = true :=
  body_invariant (P := fun s => freshAfter true s = true) rfl
    (fun hs ht => by rw [freshAfter_append, hs, ht]) freshAfter_entry h

theorem endsLine?_document {ps : Params} {document : String} (h : ps.document = .ok document) :
    endsLine? document.toList = some true := by
  unfold Params.document at h
  split at h
  · cases h
    rfl
  · cases hbody : body ps.entries with
    | error fault =>
      rw [hbody] at h
      cases h
    | ok lines =>
      rw [hbody] at h
      cases h
      have hfresh := freshAfter_body hbody
      have hlines : (String.ofList lines).toList = lines := String.toList_ofList
      rw [String.toList_append, hlines, endsLine?_append]
      unfold freshAfter at hfresh
      cases hends : endsLine? lines with
      | none => rfl
      | some ends =>
        rw [hends] at hfresh
        exact congrArg some hfresh

/-- A document needs no further line feed. -/
theorem terminated_document {ps : Params} {document : String} (h : ps.document = .ok document) :
    Printer.terminated document = document := by
  apply String.toList_inj.1
  rw [Style.toList_terminated, endsLine?_document h, if_pos rfl, List.append_nil]

end Params

/-! ## Printing -/

variable (p : Printer) (s : Surroundings)

/-- The call that prints a document, plain or painted as a whole, or the warning in its place. -/
inductive Printer.Prints : Except MarshalFault String → Call → Prop
  | plain {document} :
    p.isColored s = false ∨ (∃ fault, p.yamlLexer.tokenize document = .error fault) →
    Prints (.ok document) (printed .info document)
  | painted {document tokens} :
    p.isColored s = true → p.yamlLexer.tokenize document = .ok tokens →
    (p.yamlLexer = Yaml.lexer → Cuts tokens document.toList) →
    Prints (.ok document)
      (printed .info (terminated (Style.paint .keyValue (p.theme s) tokens)))
  | warning {fault : MarshalFault} :
    Prints (.error fault) (printed .warn
      (Style.severityLabel .warn (p.theme s) (p.isColored s) ++ " " ++ fault.message ++ "\n"))

theorem prints_document {ps : Params} {document : String} (h : ps.document = .ok document) :
    p.Prints s (.ok document) (Printer.printed .info (p.documentText s document)) := by
  unfold Printer.documentText
  split
  · next hcolor =>
    split
    · next tokens htokens =>
      refine .painted hcolor htokens fun hlexer => ?_
      rw [hlexer] at htokens
      exact Yaml.cuts_tokenize htokens
    · next fault hfault =>
      rw [Params.terminated_document h]
      exact .plain (.inr ⟨fault, hfault⟩)
  · next hcolor =>
    rw [Params.terminated_document h]
    exact .plain (.inl (Bool.not_eq_true _ ▸ hcolor))

/-- Where `info` is enabled parameters are printed in one call. -/
theorem prints_params {enabled : Severity → Bool} (h : enabled .info = true) (ps : Params) :
    ∃ c, callsOf (p.paramsOn s enabled ps) = [c] ∧ p.Prints s ps.document c := by
  rw [Printer.callsOf_paramsOn, if_pos h]
  refine ⟨_, rfl, ?_⟩
  cases hdocument : ps.document with
  | ok document => exact prints_document p s hdocument
  | error fault => exact .warning

/-- Names keep the place where they came first and take the value that came last. The document
of such parameters is their chunks, each as if it stood alone, or the first fault. On any sink
with `info` enabled it is printed in one call, as a whole or as a warning. -/
theorem params_by_entries (pairs : List (String × Value)) :
    Params.Settled pairs (Params.ofList pairs).entries ∧
      Params.Written (Params.ofList pairs).entries (Params.ofList pairs).document ∧
      ∀ {σ : Type} (k : AnySink σ) (sink : σ), k.enabled sink .info = true →
        ∃ c, attempts (k.params p s sink (Params.ofList pairs)).1 = [c] ∧
          p.Prints s (Params.ofList pairs).document c := by
  refine ⟨Params.settled_ofList pairs, Params.written_document _, fun k sink h => ?_⟩
  unfold AnySink.params
  rw [AnySink.attempts_act]
  exact prints_params p s h (Params.ofList pairs)

/-- A name that is set again keeps its place, and its text of two lines is one chunk. -/
theorem params_by_entries_again :
    let p : Printer := .new .never .plain
    let s : Surroundings := ⟨.unset, false, ⟨false, false, false, true⟩⟩
    let pairs : List (String × Value) := [("b", .int 1), ("a", .bool true), ("b", .text "x\ny")]
    let sink : Sink := .new .writer .info
    (Sink.anySink .none).enabled sink .info = true ∧
      Params.Settled pairs [("b", .text "x\ny"), ("a", .bool true)] ∧
      (∃ c, attempts ((Sink.anySink .none).params p s sink (Params.ofList pairs)).1 = [c] ∧
        p.Prints s (Params.ofList pairs).document c) ∧
      attempts ((Sink.anySink .none).params p s sink (Params.ofList pairs)).1 =
        [Printer.printed .info "with:\n  b: |-\n    x\n    y\n  a: true\n"] := by
  intro p s pairs sink
  have henabled : (Sink.anySink .none).enabled sink .info = true := by decide
  obtain ⟨hsettled, -, hprints⟩ := params_by_entries p s pairs
  exact ⟨henabled, hsettled, hprints _ sink henabled, by decide +kernel⟩

end StepLog
