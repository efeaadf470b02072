/-
  What a write leaves in a directory tree.

  A path that leads somewhere leads there with more directories too (`follow_of_more`), and a write
  makes none but those around the file. So the path of a file that was written still leads to the
  file, and what is found there is what was written (`look_write?`).
-/
import StepLog.Files.Tree

namespace StepLog.Tree

variable {t t' : Tree} {names found : List Text.Bytes}

/-- The first tree has every directory of the second. -/
def MoreDirectories (t' t : Tree) : Prop :=
  ∀ names, t.isDirectory names = true → t'.isDirectory names = true

theorem follow_of_more (hmore : MoreDirectories t' t) {pieces : List Text.Bytes}
    (h : t.follow names pieces = some found) : t'.follow names pieces = some found := by
  have hopen : ∀ {names}, ¬ (!t.isDirectory names) = true → ¬ (!t'.isDirectory names) = true := by
    intro names hnames
    rw [Bool.not_eq_true', Bool.not_eq_false] at hnames ⊢
    exact hmore names hnames
  fun_induction Tree.follow t names pieces with
  | case1 names => exact h
  | case2 names x rest hclosed => cases h
  | case3 names x rest hdirectory hnothing ih =>
    rw [follow, if_neg (hopen hdirectory), if_pos hnothing]
    exact ih h
  | case4 names x rest hdirectory hnamed hback ih =>
    rw [follow, if_neg (hopen hdirectory), if_neg hnamed, if_pos hback]
    exact ih h
  | case5 names x rest hdirectory hnamed hforth ih =>
    rw [follow, if_neg (hopen hdirectory), if_neg hnamed, if_neg hforth]
    exact ih h

theorem resolve_of_more (hmore : MoreDirectories t' t) {workingDirectory : List Text.Bytes}
    {p : Path} (h : t.resolve workingDirectory p = some found) :
    t'.resolve workingDirectory p = some found := by
  unfold resolve at h ⊢
  by_cases hempty : p.isEmpty = true
  · rw [if_pos hempty] at h
    cases h
  · rw [if_neg hempty] at h ⊢
    exact follow_of_more hmore h

/-- A file is added with the directories around it, and no others. -/
theorem isDirectory_addFile (others : List Text.Bytes) (b : Text.Bytes) :
    (t.addFile names b).isDirectory others = true ↔
      t.isDirectory others = true ∨ others <+: names.dropLast := by
  have hrange : others ∈ (List.range (names.dropLast.length + 1)).map names.dropLast.take ↔
      others <+: names.dropLast := by
    rw [List.mem_map]
    constructor
    · rintro ⟨n, -, rfl⟩
      exact List.take_prefix n _
    · intro h
      refine ⟨others.length, ?_, (List.prefix_iff_eq_take.1 h).symm⟩
      rw [List.mem_range]
      exact Nat.lt_succ_of_le h.length_le
  unfold isDirectory
  rw [List.contains_iff_mem, List.contains_iff_mem, ← hrange]
  exact List.mem_append

theorem file?_addFile (b : Text.Bytes) : (t.addFile names b).file? names = some b :=
  List.lookup_cons_self

/-- A file is written where its path leads: to no directory, but into one. -/
theorem of_write? {workingDirectory : List Text.Bytes} {p : Path} {b : Text.Bytes}
    (h : t.write? workingDirectory p b = some t') :
    ∃ names, t.resolve workingDirectory p = some names ∧ ¬ t.isDirectory names = true ∧
      t.isDirectory names.dropLast = true ∧ t' = t.addFile names b := by
  unfold write? at h
  cases hresolve : t.resolve workingDirectory p with
  | none =>
    rw [hresolve] at h
    cases h
  | some names =>
    rw [hresolve] at h
    dsimp only at h
    split at h
    · cases h
    · next hfree =>
      rw [Bool.or_eq_true, not_or, Bool.not_eq_true', Bool.not_eq_false] at hfree
      exact ⟨names, rfl, hfree.1, hfree.2, (Option.some.inj h).symm⟩

/-- What was written to a path is found there. -/
theorem look_write? {workingDirectory : List Text.Bytes} {p : Path} {b : Text.Bytes}
    (h : t.write? workingDirectory p b = some t') : t'.look workingDirectory p = .contents b := by
  obtain ⟨names, hresolve, hfile, haround, rfl⟩ := of_write? h
  have hmore : MoreDirectories (t.addFile names b) t :=
    fun others h => (isDirectory_addFile others b).2 (.inl h)
  have hnone : ¬ (t.addFile names b).isDirectory names = true := by
    rw [isDirectory_addFile, not_or]
    refine ⟨hfile, fun haround' => ?_⟩
    have hnil : names = [] := by
      have hlength := haround'.length_le
      rw [List.length_dropLast] at hlength
      exact List.length_eq_zero_iff.1 (by omega)
    rw [hnil] at hfile haround
    exact hfile haround
  unfold look
  rw [resolve_of_more hmore hresolve]
  dsimp only
  rw [if_neg hnone, file?_addFile]

/-- What is written is found however the path is spelled. -/
example (b : Text.Bytes) :
    (empty.write? [] (.ofString "runlog.yml") b).map (·.look [] (.ofString "./runlog.yml")) =
      some (.contents b) := rfl

end StepLog.Tree
