/-!
# Totals over a list

Bounds on the work of a construction are sums over the rules, the edges or the
pending tasks it starts from.
-/

namespace GrammarAnalysis

variable {α : Type}

/-- The sum of the weights of the members of a list. -/
def totalBy (weight : α → Nat) : List α → Nat
  | [] => 0
  | a :: rest => weight a + totalBy weight rest

@[simp] theorem totalBy_nil (weight : α → Nat) : totalBy weight [] = 0 := rfl

@[simp] theorem totalBy_cons (weight : α → Nat) (a : α) (rest : List α) :
    totalBy weight (a :: rest) = weight a + totalBy weight rest := rfl

@[simp] theorem totalBy_append (weight : α → Nat) (as bs : List α) :
    totalBy weight (as ++ bs) = totalBy weight as + totalBy weight bs := by
  induction as with
  | nil => simp
  | cons a rest ih => simp [ih, Nat.add_assoc]

theorem length_flatMap_eq_totalBy {β : Type} (f : α → List β) (as : List α) :
    (as.flatMap f).length = totalBy (fun a => (f a).length) as := by
  induction as with
  | nil => rfl
  | cons a rest ih => rw [List.flatMap_cons, List.length_append, ih, totalBy_cons]

end GrammarAnalysis
