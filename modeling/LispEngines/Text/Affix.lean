/-!
# Affixes

Taking a known beginning or ending off a text.
-/

namespace LispEngines.Text

/-- What follows `lead` in a list that starts with it. -/
def afterLead? : (lead : List Char) → List Char → Option (List Char)
  | [], cs => some cs
  | _ :: _, [] => none
  | l :: ls, c :: cs => if l = c then afterLead? ls cs else none

/-- What follows `lead` in a text that starts with it. -/
def dropLead? (lead s : String) : Option String :=
  (afterLead? lead.toList s.toList).map String.ofList

/-- What precedes `tail` in a text that ends with it. -/
def dropTail? (tail s : String) : Option String :=
  (afterLead? tail.toList.reverse s.toList.reverse).map fun cs => String.ofList cs.reverse

theorem afterLead?_append (lead cs : List Char) : afterLead? lead (lead ++ cs) = some cs := by
  induction lead with
  | nil => rfl
  | cons l ls ih => simp [afterLead?, ih]

theorem eq_append_of_afterLead? {lead cs rest : List Char}
    (h : afterLead? lead cs = some rest) : cs = lead ++ rest := by
  induction lead generalizing cs with
  | nil => simpa [afterLead?] using h
  | cons l ls ih =>
    cases cs with
    | nil => simp [afterLead?] at h
    | cons c cs =>
      by_cases hl : l = c
      · subst hl
        rw [afterLead?, if_pos rfl] at h
        rw [ih h]
        rfl
      · simp [afterLead?, hl] at h

/-- A list starts with `lead` exactly when it is `lead` and then the rest. -/
theorem afterLead?_eq_some_iff {lead cs rest : List Char} :
    afterLead? lead cs = some rest ↔ cs = lead ++ rest :=
  ⟨eq_append_of_afterLead?, fun h => h ▸ afterLead?_append lead rest⟩

end LispEngines.Text
