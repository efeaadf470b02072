/-
  Parameters of a step: names with values, in the order in which the names came first.
-/
import StepLog.Params.Value

namespace StepLog

/-- Sets a name's value. A name that is there keeps its place. -/
def assign (name : String) (value : Value) : List (String × Value) → List (String × Value)
  | [] => [(name, value)]
  | (n, v) :: es => if n = name then (n, value) :: es else (n, v) :: assign name value es

theorem names_assign (name : String) (value : Value) (es : List (String × Value)) :
    (assign name value es).map Prod.fst =
      if name ∈ es.map Prod.fst then es.map Prod.fst else es.map Prod.fst ++ [name] := by
  induction es with
  | nil => rfl
  | cons e es ih =>
    obtain ⟨n, v⟩ := e
    unfold assign
    split
    · next h => simp [h]
    · next h =>
      have h' : name ≠ n := fun e => h e.symm
      simp only [List.map_cons, ih, List.mem_cons, h', false_or]
      split <;> simp

/-- Entries under different names. -/
structure Params where
  entries : List (String × Value)
  nodup : (entries.map Prod.fst).Nodup

namespace Params

def empty : Params := ⟨[], List.nodup_nil⟩

/-- Sets a parameter. One that is there keeps its place. -/
def insert (ps : Params) (name : String) (value : Value) : Params where
  entries := assign name value ps.entries
  nodup := by
    have h := ps.nodup
    rw [names_assign]
    split
    · exact h
    · next hn =>
      refine List.nodup_append.2 ⟨h, by simp, ?_⟩
      intro a ha b hb e
      rw [List.mem_singleton.1 hb] at e
      exact hn (e ▸ ha)

/-- The parameters that a list of names and values sets, one after the other. -/
def ofList (pairs : List (String × Value)) : Params :=
  pairs.foldl (fun ps p => ps.insert p.1 p.2) empty

end Params

end StepLog
