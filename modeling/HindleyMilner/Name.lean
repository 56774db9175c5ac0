import Std.Data.ExtTreeMap
import Std.Data.ExtTreeSet

/-! Names and the finite maps keyed by them. Names are ordered as text, by code
point, and every listing of a set or map of names follows that order. -/
namespace HindleyMilner

/-- The name of a term variable, a type variable, a class or a primitive unit. -/
abbrev Name := String

/-- A finite map keyed by names. Maps with the same entries are equal. -/
abbrev NameMap (α : Type) := Std.ExtTreeMap Name α

/-- A finite set of names. Sets with the same members are equal. -/
abbrev NameSet := Std.ExtTreeSet Name

/-- The distinct names of a list, in name order. -/
def Name.distinct (names : List Name) : List Name :=
  (Std.ExtTreeSet.ofList names : NameSet).toList

/-- Dropping repetitions loses no name. -/
theorem Name.mem_distinct {x : Name} {names : List Name} :
    x ∈ Name.distinct names ↔ x ∈ names := by
  simp [Name.distinct]

theorem Name.nodup_distinct (names : List Name) : (Name.distinct names).Nodup := by
  unfold List.Nodup Name.distinct
  exact Std.ExtTreeSet.distinct_toList.imp fun h => by simpa using h

/-- A list whose names all occur in another has no more distinct names. -/
theorem Name.length_distinct_le {names others : List Name} (h : ∀ y ∈ names, y ∈ others) :
    (Name.distinct names).length ≤ (Name.distinct others).length :=
  (Name.nodup_distinct names).length_le_of_subset fun _ hy =>
    Name.mem_distinct.mpr (h _ (Name.mem_distinct.mp hy))

/-- It has strictly fewer if one of the other list's names is missing. -/
theorem Name.length_distinct_lt {names others : List Name} {x : Name} (hx : x ∈ others)
    (h : ∀ y ∈ names, y ≠ x ∧ y ∈ others) :
    (Name.distinct names).length < (Name.distinct others).length := by
  have hNodup : (x :: Name.distinct names).Nodup :=
    List.nodup_cons.mpr
      ⟨fun hMem => (h x (Name.mem_distinct.mp hMem)).1 rfl, Name.nodup_distinct names⟩
  refine hNodup.length_le_of_subset fun y hy => Name.mem_distinct.mpr ?_
  rcases List.mem_cons.mp hy with rfl | hy
  · exact hx
  · exact (h y (Name.mem_distinct.mp hy)).2

end HindleyMilner
