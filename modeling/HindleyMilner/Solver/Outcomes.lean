import HindleyMilner.Solver.Rules

/-! What a step of an equation that succeeds has done, case by case. The measure and the
invariants of the solver are shown from these cases, and none of them takes the rules apart
again. -/
namespace HindleyMilner.Focus

variable {L : Language}

/-- A step that puts some entries in place of a constraint and of the entry
below it. Which entries these are is said by a relation. -/
inductive Meets (R : Entry L → List (Entry L) → Prop) : Focus L → State L → Prop where
  | mk {supply : Supply} {top : Entry L} {below above emitted : List (Entry L)}
      (h : R top emitted) :
      Meets R ⟨supply, top :: below, above⟩ (resume ⟨supply, below, above⟩ emitted)

/-- What an equation between a variable and another type makes of
the entry below it. -/
inductive Walked (goal : Goal L) (deps : L.Telescope) (eq : FlexRigid L) :
    Entry L → List (Entry L) → Prop where
  | solve {kind : L.Kind} (hFree : eq.name ∉ freeVars eq.rigid) :
      Walked goal deps eq (.intro eq.name kind) (deps.intros ++ [.define eq.name eq.rigid kind])
  | lift {x : Name} {kind : L.Kind} (hName : x ≠ eq.name) (hMentions : x ∈ freeVars eq.rigid) :
      Walked goal deps eq (.intro x kind) [.constraint ⟨(x, kind) :: deps, goal⟩]
  | unfold {x : Name} {type : L.Ty} {kind : L.Kind} :
      Walked goal deps eq (.define x type kind) (deps.intros ++
        [.ofGoal (.eq (subst1 x type eq.flex) (subst1 x type eq.rigid)), .define x type kind])
  | skip {x : Name} {type : L.Ty} {kind : L.Kind} (hName : x ≠ eq.name)
      (hFree : x ∉ freeVars eq.rigid) :
      Walked goal deps eq (.define x type kind) (deps.intros ++ [.ofGoal goal, .define x type kind])
  | pass {top : Entry L} (hTop : top.isConstraint = false) (hDefinition : top.definition? = none)
      (hUnused : ∀ x kind, top = .intro x kind → x ≠ eq.name ∧ x ∉ freeVars eq.rigid) :
      Walked goal deps eq top [.constraint ⟨deps, goal⟩, top]

/-- A walk that succeeds meets an entry, and no constraint. The cases of the
definition are sorted by what the entry is and by whether the equation
mentions its variable. -/
theorem walk_meets {f : Focus L} {goal : Goal L} {deps : L.Telescope} {eq : FlexRigid L}
    {t : State L} (h : f.walk goal deps eq = .ok t) : f.Meets (Walked goal deps eq) t := by
  obtain ⟨supply, below, above⟩ := f
  cases below with
  | nil => cases h
  | cons top below =>
      simp only [walk, pop, bind, Except.bind, mentions, decide_eq_true_eq] at h
      cases top with
      | intro x kind =>
          simp only at h
          by_cases hName : x = eq.name
          · subst hName
            by_cases hMentions : eq.name ∈ freeVars eq.rigid
            · rw [if_pos rfl, if_pos hMentions] at h
              cases h
            · rw [if_pos rfl, if_neg hMentions] at h
              cases h
              exact .mk (.solve hMentions)
          · by_cases hMentions : x ∈ freeVars eq.rigid
            · rw [if_neg hName, if_pos hMentions] at h
              cases h
              exact .mk (.lift hName hMentions)
            · rw [if_neg hName, if_neg hMentions] at h
              cases h
              refine .mk (.pass rfl rfl fun y k hEq => ?_)
              cases hEq
              exact ⟨hName, hMentions⟩
      | define x type kind =>
          cases h
          by_cases hMentions : x = eq.name ∨ x ∈ freeVars eq.rigid
          · rw [if_pos hMentions]
            exact .mk .unfold
          · rw [if_neg hMentions]
            exact .mk (.skip (fun hName => hMentions (.inl hName)) fun hx => hMentions (.inr hx))
      | constraint c => cases h
      | _ =>
          cases h
          exact .mk (.pass rfl rfl fun _ _ hEq => by cases hEq)

/-- What an equation between two variables makes of the entry below it. -/
inductive Met (a b : Name) (l r : L.Ty) : Entry L → List (Entry L) → Prop where
  | left {kind : L.Kind} : Met a b l r (.intro a kind) [.define a r kind]
  | right {kind : L.Kind} (hNe : b ≠ a) : Met a b l r (.intro b kind) [.define b l kind]
  | unfold {x : Name} {type : L.Ty} {kind : L.Kind} :
      Met a b l r (.define x type kind)
        [.ofGoal (.eq (subst1 x type l) (subst1 x type r)), .define x type kind]
  | skip {x : Name} {type : L.Ty} {kind : L.Kind} (hLeft : x ≠ a) (hRight : x ≠ b) :
      Met a b l r (.define x type kind) [.ofGoal (.eq l r), .define x type kind]
  | pass {top : Entry L} (hTop : top.isConstraint = false) (hDefinition : top.definition? = none)
      (hUnused : ∀ x kind, top = .intro x kind → x ≠ a ∧ x ≠ b) :
      Met a b l r top [.ofGoal (.eq l r), top]

/-- Two variables that are equated meet an entry, and no constraint. If the
entry introduces one of them it is defined there, and if it defines one of
them it is substituted. -/
theorem meetVars_meets {f : Focus L} {a b : Name} {l r : L.Ty} {t : State L}
    (h : f.meetVars a b l r = .ok t) : f.Meets (Met a b l r) t := by
  obtain ⟨supply, below, above⟩ := f
  cases below with
  | nil => cases h
  | cons top below =>
      simp only [meetVars, pop, bind, Except.bind] at h
      cases top with
      | intro x kind =>
          simp only at h
          by_cases hLeft : x = a
          · subst hLeft
            rw [if_pos rfl] at h
            cases h
            exact .mk .left
          · by_cases hRight : x = b
            · subst hRight
              rw [if_neg hLeft, if_pos rfl] at h
              cases h
              exact .mk (.right hLeft)
            · rw [if_neg hLeft, if_neg hRight] at h
              cases h
              refine .mk (.pass rfl rfl fun y k hEq => ?_)
              cases hEq
              exact ⟨hLeft, hRight⟩
      | define x type kind =>
          simp only at h
          by_cases hx : x = a ∨ x = b
          · rw [if_pos hx] at h
            cases h
            exact .mk .unfold
          · rw [if_neg hx] at h
            cases h
            exact .mk (.skip (fun ha => hx (.inl ha)) fun hb => hx (.inr hb))
      | constraint c => cases h
      | _ =>
          cases h
          exact .mk (.pass rfl rfl fun _ _ hEq => by cases hEq)

/-- Putting variables down below a constraint and then some entries in its place
is the same as putting both in its place. -/
theorem lower_resume (f : Focus L) (deps : L.Telescope) (es : List (Entry L)) :
    (f.lower deps).resume es = f.resume (deps.intros ++ es) := by
  simp [lower, resume]

variable [Rules L]

/-- What a step makes of an equation, by which of its sides are variables. -/
inductive Equated (f : Focus L) (deps : L.Telescope) (l r : L.Ty) : State L → Prop where
  | left {x : Name} {t : State L} (hLeft : L.asVar? l = some x) (hRight : L.asVar? r = none)
      (h : f.flexRigid deps ⟨x, l, r⟩ = .ok t) : Equated f deps l r t
  | right {x : Name} {t : State L} (hLeft : L.asVar? l = none) (hRight : L.asVar? r = some x)
      (h : f.flexRigid deps ⟨x, r, l⟩ = .ok t) : Equated f deps l r t
  | same {x : Name} (hLeft : L.asVar? l = some x) (hRight : L.asVar? r = some x) :
      Equated f deps l r (f.resume deps.intros)
  | meet {a b : Name} {t : State L} (hNe : a ≠ b) (hLeft : L.asVar? l = some a)
      (hRight : L.asVar? r = some b) (h : (f.lower deps).meetVars a b l r = .ok t) :
      Equated f deps l r t
  | split {goals : List (Goal L)} (hLeft : L.asVar? l = none) (hRight : L.asVar? r = none)
      (h : Rules.decompose l r = .ok goals) :
      Equated f deps l r (f.resume (deps.intros ++ goals.map .ofGoal))

/-- A step of an equation that succeeds is one of the five cases, by which of
its sides are variables and whether they are the same one. -/
theorem equated_of_solveEq {f : Focus L} {deps : L.Telescope} {l r : L.Ty} {t : State L}
    (h : f.solveEq deps l r = .ok t) : f.Equated deps l r t := by
  rw [solveEq] at h
  cases hLeft : L.asVar? l with
  | some a =>
      cases hRight : L.asVar? r with
      | none =>
          rw [hLeft, hRight] at h
          exact .left hLeft hRight h
      | some b =>
          simp only [hLeft, hRight] at h
          by_cases hEq : a = b
          · subst hEq
            rw [if_pos rfl] at h
            cases h
            exact .same hLeft hRight
          · rw [if_neg hEq] at h
            exact .meet hEq hLeft hRight h
  | none =>
      cases hRight : L.asVar? r with
      | some b =>
          rw [hLeft, hRight] at h
          exact .right hLeft hRight h
      | none =>
          rw [hLeft, hRight] at h
          obtain ⟨goals, hGoals, h⟩ := bind_eq_ok.mp h
          cases h
          rw [lower_resume]
          exact .split hLeft hRight hGoals

end HindleyMilner.Focus
