import GrammarAnalysis.Symbol

/-!
# Regular expressions over terminals

Concatenations and unions have any number of parts.  The constructors of this
module simplify on the way: `Regex.concatAll` flattens and drops the empty
word, `Regex.union` flattens and drops repetitions.
-/

namespace GrammarAnalysis

/-- A regular expression. -/
inductive Regex where
  /-- The empty word. -/
  | epsilon
  | symbol (t : TerminalId)
  | concat (parts : List Regex)
  | union (alternatives : List Regex)
  | star (inner : Regex)

namespace Regex

mutual

/-- Whether two expressions are built alike. -/
def same : Regex → Regex → Bool
  | epsilon, epsilon => true
  | symbol t, symbol u => t == u
  | concat rs, concat ss => sameList rs ss
  | union rs, union ss => sameList rs ss
  | star r, star s => same r s
  | _, _ => false

/-- Whether two lists of expressions are built alike. -/
def sameList : List Regex → List Regex → Bool
  | [], [] => true
  | r :: rs, s :: ss => same r s && sameList rs ss
  | _, _ => false

end

mutual

theorem eq_of_same {r s : Regex} (h : same r s = true) : r = s := by
  match r, s with
  | epsilon, epsilon => rfl
  | symbol t, symbol u =>
    simp only [same, beq_iff_eq] at h
    rw [h]
  | concat rs, concat ss =>
    simp only [same] at h
    rw [eq_of_sameList h]
  | union rs, union ss =>
    simp only [same] at h
    rw [eq_of_sameList h]
  | star r, star s =>
    simp only [same] at h
    rw [eq_of_same h]
  | epsilon, symbol _ | epsilon, concat _ | epsilon, union _ | epsilon, star _
  | symbol _, epsilon | symbol _, concat _ | symbol _, union _ | symbol _, star _
  | concat _, epsilon | concat _, symbol _ | concat _, union _ | concat _, star _
  | union _, epsilon | union _, symbol _ | union _, concat _ | union _, star _
  | star _, epsilon | star _, symbol _ | star _, concat _ | star _, union _ =>
    simp [same] at h

theorem eq_of_sameList {rs ss : List Regex} (h : sameList rs ss = true) : rs = ss := by
  match rs, ss with
  | [], [] => rfl
  | r :: rs, s :: ss =>
    simp only [sameList, Bool.and_eq_true] at h
    rw [eq_of_same h.1, eq_of_sameList h.2]
  | [], _ :: _ | _ :: _, [] => simp [sameList] at h

end

mutual

theorem same_self (r : Regex) : same r r = true := by
  match r with
  | epsilon => rfl
  | symbol t => simp [same]
  | concat rs => simp [same, sameList_self rs]
  | union rs => simp [same, sameList_self rs]
  | star r => simp [same, same_self r]

theorem sameList_self (rs : List Regex) : sameList rs rs = true := by
  match rs with
  | [] => rfl
  | r :: rs => simp [sameList, same_self r, sameList_self rs]

end

instance : DecidableEq Regex := fun r s =>
  if h : same r s = true then .isTrue (eq_of_same h)
  else .isFalse fun e => h (e ▸ same_self r)

instance : Inhabited Regex := ⟨epsilon⟩

/-- The parts that an expression contributes to a concatenation. -/
def factors : Regex → List Regex
  | epsilon => []
  | concat parts => parts
  | r => [r]

/-- The alternatives that an expression contributes to a union. -/
def branches : Regex → List Regex
  | union alternatives => alternatives
  | r => [r]

/-- The concatenation of the parts, flattened and without empty words. -/
def concatAll (parts : List Regex) : Regex :=
  match parts.flatMap factors with
  | [] => epsilon
  | [r] => r
  | rs => concat rs

/-- The members of a list, each once, in order of first occurrence. -/
def withoutRepeats (known : List Regex) : List Regex → List Regex
  | [] => known
  | r :: rs => withoutRepeats (if r ∈ known then known else known ++ [r]) rs

/-- The union of two expressions, flattened and without repetitions. -/
def either (r s : Regex) : Regex :=
  match withoutRepeats [] (r.branches ++ s.branches) with
  | [r] => r
  | rs => union rs

/-- The repetition of an expression; the empty word and a repetition stay as they are. -/
def repeated : Regex → Regex
  | epsilon => epsilon
  | star r => star r
  | r => star r

end Regex

end GrammarAnalysis
