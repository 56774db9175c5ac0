import HindleyMilner.Proofs.Classes.Kinding
import HindleyMilner.Proofs.Runs

/-! Kinds while types with classes are solved. The parts of two applications may have
different kinds although the applications have one, and where two variables of different
kinds come to be equated, one is defined by the other. A run from types that agree in
their kinds comes to such a clash, or it keeps kinds. It comes to none if variables only
take data types. -/
namespace HindleyMilner.Classes

open Context

/-- The equation that an entry asks for. -/
def equation? : Entry language → Option (Ty × Ty)
  | .constraint ⟨_, .eq l r⟩ => some (l, r)
  | _ => none

/-- The equations of a context, in the order in which they are solved. -/
def equations (es : List (Entry language)) : List (Ty × Ty) := es.filterMap equation?

theorem equations_append (es fs : List (Entry language)) :
    equations (es ++ fs) = equations es ++ equations fs := List.filterMap_append

/-- Entries that are no constraints ask for no equation. -/
theorem equations_of_settled {es : List (Entry language)} (h : Settled es) : equations es = [] := by
  apply List.filterMap_eq_nil_iff.mpr
  intro e he
  have hNot := h e he
  cases e with
  | constraint c => cases hNot
  | _ => rfl

/-- An equation that goes past an entry stays the one it was. -/
theorem equations_passed {deps : language.Telescope} {l r : Ty} {e : Entry language}
    (he : e.isConstraint = false) : equations [.constraint ⟨deps, .eq l r⟩, e] = [(l, r)] := by
  have hRest : equations [e] = [] := equations_of_settled (by simpa [Settled] using he)
  rw [← List.singleton_append, equations_append, hRest]
  rfl

/-- What a step makes of an equation: the definitions that it adds, and the
equations that are left. -/
inductive Effect (es : List (Entry language)) :
    Ty → Ty → List (Name × Ty × Kind) → List (Ty × Ty) → Prop where
  | keep (l r : Ty) : Effect es l r [] [(l, r)]
  /-- A definition is substituted. -/
  | unfold {x : Name} {type : Ty} {kind : Kind} (h : .define x type kind ∈ es) (l r : Ty) :
      Effect es l r [] [(subst1 x type l, subst1 x type r)]
  /-- A variable is defined. The kinds of the two sides are compared, unless both are
  variables. -/
  | solve {x : Name} {k kind : Kind} {r : Ty} (hDeclared : (x, kind) ∈ declared es)
      (hKind : r.asVar? = none → r.kind = .ok k) : Effect es (.var x k) r [(x, r, kind)] []
  | drop (x : Name) (j k : Kind) : Effect es (.var x j) (.var x k) [] []
  | con (c : Name) (j k : Kind) : Effect es (.con c j) (.con c k) [] []
  | app (f a g b : Ty) : Effect es (.app f a) (.app g b) [] [(f, g), (a, b)]
  | turn {l r : Ty} {new : List (Name × Ty × Kind)} {left : List (Ty × Ty)}
      (h : Effect es l r new left) : Effect es r l new left

/-- A state in which some definitions and equations have taken the place of the
equation at which a context was opened. -/
structure Leaves (f : Focus language) (t : ClassState) (new : List (Name × Ty × Kind))
    (left : List (Ty × Ty)) : Prop where
  equations_eq : equations t.context.entries = left ++ equations f.above
  define_iff : ∀ x type kind, .define x type kind ∈ t.context.entries ↔
    (x, type, kind) ∈ new ∨ .define x type kind ∈ f.below.reverse ++ f.above

/-- Entries that define nothing leave the definitions as they were, and their
equations in front of those above. -/
theorem Leaves.of_resume {f : Focus language} {emitted : List (Entry language)}
    {left : List (Ty × Ty)} (hBelow : Settled f.below.reverse) (hLeft : equations emitted = left)
    (hDefine : ∀ x type kind, .define x type kind ∉ emitted) :
    Leaves f (f.resume emitted) [] left := by
  refine ⟨?_, fun x type kind => ?_⟩
  · rw [Focus.resume, equations_append, equations_append, equations_of_settled hBelow, hLeft]
    rfl
  · simp [Focus.resume, hDefine]

/-- A step may put back the entry that it has looked at. What counts are the
definitions and the equations among the entries that it puts in place. -/
theorem Leaves.of_pop {supply : Supply} {top : Entry language}
    {below above emitted : List (Entry language)} {new : List (Name × Ty × Kind)}
    {left : List (Ty × Ty)} (hBelow : Settled (top :: below).reverse)
    (hLeft : equations emitted = left)
    (hDefine : ∀ x type kind, .define x type kind ∈ emitted ↔
      (x, type, kind) ∈ new ∨ .define x type kind = top) :
    Leaves ⟨supply, top :: below, above⟩ (Focus.resume ⟨supply, below, above⟩ emitted) new
      left := by
  obtain ⟨hRest, -⟩ := Focus.settled_of_cons hBelow
  refine ⟨?_, fun x type kind => ?_⟩
  · rw [Focus.resume, equations_append, equations_append, equations_of_settled hRest, hLeft]
    rfl
  · simp only [Focus.resume, List.reverse_cons, List.mem_append, List.mem_singleton, hDefine]
    grind

theorem define_not_mem_intros {x : Name} {type : Ty} {kind : Kind} (deps : language.Telescope) :
    (.define x type kind : Entry language) ∉ deps.intros := by
  intro h
  obtain ⟨d, -, hd⟩ := List.mem_map.mp h
  cases hd

/-- The variables that an equation has put down are no definitions, so it makes
no difference whether they count as below it. -/
theorem Leaves.of_lower {f : Focus language} {deps : language.Telescope} {t : ClassState}
    {new : List (Name × Ty × Kind)} {left : List (Ty × Ty)} (h : Leaves (f.lower deps) t new left) :
    Leaves f t new left := by
  refine ⟨h.equations_eq, fun x type kind => (h.define_iff x type kind).trans ?_⟩
  have hNot : .define x type kind ∉ deps.intros := define_not_mem_intros deps
  simp only [Focus.lower, List.reverse_append, List.reverse_reverse, List.mem_append]
  grind

section

variable {es : List (Entry language)} {f : Focus language} {t : ClassState}
  (hBelow : Settled f.below.reverse)
  (hDefine : ∀ x type kind, .define x type kind ∈ f.below → .define x type kind ∈ es)
  (hDeclared : declared f.below.reverse ⊆ declared es)

include hBelow hDefine hDeclared

/-- An equation between a variable and a type of the variable's kind defines the
variable, takes a definition into account, or stays as it is. -/
theorem walk_effect {deps : language.Telescope} {x : Name} {k : Kind} {r : Ty}
    (hKind : r.kind = .ok k)
    (h : f.walk (.eq (Ty.var x k) r) deps ⟨x, Ty.var x k, r⟩ = .ok t) :
    ∃ new left, Effect es (.var x k) r new left ∧ Leaves f t new left := by
  cases Focus.walk_meets h with
  | @mk _ top below _ _ hWalked =>
      have hIntros := equations_of_settled (settled_intros (L := language) deps)
      cases hWalked with
      | @solve kind hFree =>
          have hIntro : (x, kind) ∈ declared es := by
            apply hDeclared
            simp [declared, Entry.declared]
          refine ⟨_, _, .solve hIntro fun _ => hKind, .of_pop hBelow ?_ fun z type j => ?_⟩
          · rw [equations_append, hIntros]
            rfl
          · simp [define_not_mem_intros]
      | lift => exact ⟨_, _, .keep _ _, .of_pop hBelow rfl fun z type j => by simp⟩
      | @unfold y type kind =>
          refine ⟨_, _, .unfold (hDefine y type kind List.mem_cons_self) _ _,
            .of_pop hBelow ?_ fun z type j => ?_⟩
          · rw [equations_append, hIntros]
            rfl
          · simp [define_not_mem_intros, Entry.ofGoal]
      | skip =>
          refine ⟨_, _, .keep _ _, .of_pop hBelow ?_ fun z type j => ?_⟩
          · rw [equations_append, hIntros]
            rfl
          · simp [define_not_mem_intros, Entry.ofGoal]
      | pass hTop =>
          refine ⟨_, _, .keep _ _, .of_pop hBelow ?_ fun z type j => by simp⟩
          exact equations_passed hTop

/-- So does an equation between two variables. Their kinds are not
compared, which is how a definition can come about that does not have the
kind of its variable. -/
theorem meetVars_effect {a b : Name} {j k : Kind}
    (h : f.meetVars a b (.var a j) (.var b k) = .ok t) :
    ∃ new left, Effect es (.var a j) (.var b k) new left ∧ Leaves f t new left := by
  cases Focus.meetVars_meets h with
  | @mk _ top below _ _ hMet =>
      cases hMet with
      | @left kind =>
          have hIntro : (a, kind) ∈ declared es := by
            apply hDeclared
            simp [declared, Entry.declared]
          exact ⟨_, _, .solve hIntro fun hRigid => (by cases hRigid),
            .of_pop hBelow rfl fun z type i => by simp⟩
      | @right kind =>
          have hIntro : (b, kind) ∈ declared es := by
            apply hDeclared
            simp [declared, Entry.declared]
          exact ⟨_, _, .turn (.solve hIntro fun hRigid => by cases hRigid),
            .of_pop hBelow rfl fun z type i => by simp⟩
      | @unfold y type kind =>
          exact ⟨_, _, .unfold (hDefine y type kind List.mem_cons_self) _ _,
            .of_pop hBelow rfl fun z type i => by simp [Entry.ofGoal]⟩
      | skip =>
          exact ⟨_, _, .keep _ _, .of_pop hBelow rfl fun z type i => by simp [Entry.ofGoal]⟩
      | pass hTop =>
          refine ⟨_, _, .keep _ _, .of_pop hBelow ?_ fun z type i => by simp [Entry.ofGoal]⟩
          exact equations_passed hTop

end

/-- The comparison of two kinds succeeds only if both types have one and the
same. -/
theorem sameKind_eq_ok {l r : Ty} (h : sameKind l r = .ok ()) :
    ∃ k, l.kind = .ok k ∧ r.kind = .ok k := by
  obtain ⟨k, hk, h⟩ := bind_eq_ok.mp h
  obtain ⟨j, hj, h⟩ := bind_eq_ok.mp h
  by_cases hEq : k = j
  · exact ⟨k, hk, hEq ▸ hj⟩
  · rw [if_neg hEq] at h
    cases h

section

variable {es : List (Entry language)} {f : Focus language} {t : ClassState}
  {deps : language.Telescope} (hBelow : Settled f.below.reverse)
  (hDefine : ∀ x type kind, .define x type kind ∈ f.below → .define x type kind ∈ es)
  (hDeclared : declared f.below.reverse ++ deps ⊆ declared es)

include hBelow hDefine hDeclared

/-- A variable walks only after its kind was compared with that of the other
side. -/
theorem flexRigid_effect {x : Name} {k : Kind} {r : Ty}
    (h : f.flexRigid deps ⟨x, Ty.var x k, r⟩ = .ok t) :
    ∃ new left, Effect es (.var x k) r new left ∧ Leaves f t new left := by
  obtain ⟨made, hRules, h⟩ := bind_eq_ok.mp h
  obtain ⟨⟨⟩, hSame, hRules⟩ := bind_eq_ok.mp hRules
  cases hRules
  obtain ⟨j, hVar, hKind⟩ := sameKind_eq_ok hSame
  cases hVar
  exact walk_effect hBelow hDefine (List.append_subset.mp hDeclared).1 hKind h

/-- What a step makes of an equation, by the forms of its sides: definitions and
equations that together say the same. -/
theorem solveEq_effect {l r : Ty} (h : f.solveEq deps l r = .ok t) :
    ∃ new left, Effect es l r new left ∧ Leaves f t new left := by
  have hTurn : ∀ {l r : Ty}, (∃ new left, Effect es l r new left ∧ Leaves f t new left) →
      ∃ new left, Effect es r l new left ∧ Leaves f t new left := by
    rintro l r ⟨new, left, hEffect, hLeaves⟩
    exact ⟨new, left, .turn hEffect, hLeaves⟩
  cases l with
  | var a j =>
      cases r with
      | var b k =>
          simp only [Focus.solveEq, Ty.asVar?] at h
          by_cases hEq : a = b
          · subst hEq
            rw [if_pos rfl] at h
            cases h
            exact ⟨_, _, .drop a j k, .of_resume hBelow
              (equations_of_settled (settled_intros deps)) fun _ _ _ => define_not_mem_intros deps⟩
          · rw [if_neg hEq] at h
            have hDefineLower : ∀ x type kind, .define x type kind ∈ (f.lower deps).below →
                .define x type kind ∈ es := by
              intro x type kind hMem
              rcases List.mem_append.mp hMem with hMem | hMem
              · exact absurd (List.mem_reverse.mp hMem) (define_not_mem_intros deps)
              · exact hDefine x type kind hMem
            rw [← Focus.declared_lower] at hDeclared
            obtain ⟨new, left, hEffect, hLeaves⟩ :=
              meetVars_effect (Focus.settled_lower hBelow deps) hDefineLower hDeclared h
            exact ⟨new, left, hEffect, hLeaves.of_lower⟩
      | con c k => exact flexRigid_effect hBelow hDefine hDeclared h
      | app g b => exact flexRigid_effect hBelow hDefine hDeclared h
  | con c j =>
      cases r with
      | var b k => exact hTurn (flexRigid_effect hBelow hDefine hDeclared h)
      | con c' k =>
          obtain ⟨goals, hGoals, h⟩ := bind_eq_ok.mp h
          simp only [Rules.decompose, decompose] at hGoals
          by_cases hEq : c = c'
          · subst hEq
            rw [if_pos rfl] at hGoals
            cases hGoals
            cases h
            exact ⟨_, _, .con c j k, .of_lower (.of_resume (Focus.settled_lower hBelow deps) rfl
              fun _ _ _ hMem => by cases hMem)⟩
          · rw [if_neg hEq] at hGoals
            cases hGoals
      | app g b => cases h
  | app g a =>
      cases r with
      | var b k => exact hTurn (flexRigid_effect hBelow hDefine hDeclared h)
      | con c k => cases h
      | app g' a' =>
          cases h
          exact ⟨_, _, .app g a g' a', .of_lower (.of_resume (Focus.settled_lower hBelow deps) rfl
            fun _ _ _ hMem => by simp [Entry.ofGoal] at hMem)⟩

end

/-- What a step does: its equation is the first one, the equations it leaves
take its place, and the others stay behind them. The definitions afterwards are
those from before and the new ones. -/
theorem step_effect {s t : ClassState} (h : s.Steps t) :
    ∃ l r rest new left, equations s.context.entries = (l, r) :: rest ∧
      Effect s.context.entries l r new left ∧ equations t.context.entries = left ++ rest ∧
      ∀ x type kind, .define x type kind ∈ t.context.entries ↔
        (x, type, kind) ∈ new ∨ .define x type kind ∈ s.context.entries := by
  obtain ⟨hCan, hStep⟩ := h
  obtain ⟨⟨deps, goal⟩, f, rfl, hBelow, hSolve⟩ := State.step_at hCan hStep
  cases goal with
  | special g => exact g.elim
  | eq l r =>
      have hDefine : ∀ x type kind, .define x type kind ∈ f.below →
          .define x type kind ∈ (f.resume [.constraint ⟨deps, .eq l r⟩]).context.entries :=
        fun x type kind hMem => List.mem_append_left _ (List.mem_reverse.mpr hMem)
      have hDeclared : declared f.below.reverse ++ deps ⊆
          declared (f.resume [.constraint ⟨deps, .eq l r⟩]).context.entries := by
        rw [Focus.resume, declared_append, List.singleton_append, declared_cons]
        exact List.append_subset.mpr ⟨List.subset_append_left _ _,
          List.subset_append_of_subset_right _ (List.subset_append_left _ _)⟩
      obtain ⟨new, left, hEffect, hLeaves⟩ := solveEq_effect hBelow hDefine hDeclared hSolve
      refine ⟨l, r, equations f.above, new, left, ?_, hEffect, hLeaves.equations_eq,
        fun x type kind => (hLeaves.define_iff x type kind).trans ?_⟩
      · rw [Focus.resume, equations_append, equations_of_settled hBelow]
        rfl
      · simp [Focus.resume]

/-- A type whose variables carry the kinds that a state declares them with. -/
abbrev Ty.AnnotatedIn (t : Ty) (s : ClassState) : Prop :=
  t.Annotated (Language.Telescope.Declares (declared s.context.entries))

section

variable {s : ClassState} (h : labelling.WellFormed s.context.entries)

include h

/-- In a labelled state the variables of the first equation carry the kinds
they are declared with. -/
theorem annotated_first {l r : Ty} {rest : List (Ty × Ty)}
    (hFirst : equations s.context.entries = (l, r) :: rest) :
    l.AnnotatedIn s ∧ r.AnnotatedIn s := by
  have hMem : (l, r) ∈ equations s.context.entries := by
    rw [hFirst]
    exact List.mem_cons_self
  obtain ⟨e, he, hEquation⟩ := List.mem_filterMap.mp hMem
  cases e with
  | constraint c =>
      obtain ⟨deps, goal⟩ := c
      cases goal with
      | special g => exact g.elim
      | eq l r =>
          cases hEquation
          -- What the equation carries is declared by it.
          have hCarried : deps ⊆ declared s.context.entries :=
            fun d hd => List.mem_flatMap.mpr ⟨_, he, hd⟩
          obtain ⟨_, -, hl, hr⟩ := Discipline.entry_of_mem h he
          have hScope : declared s.context.entries ++ deps ⊆ declared s.context.entries :=
            List.append_subset.mpr ⟨List.Subset.refl _, hCarried⟩
          exact ⟨fun p hp => hScope (hl p hp), fun p hp => hScope (hr p hp)⟩
  | _ => cases hEquation

/-- A definition is that of a declared variable, and the variables of its type
carry the kinds they are declared with. -/
theorem annotated_define {x : Name} {type : Ty} {kind : Kind}
    (hMem : .define x type kind ∈ s.context.entries) :
    (x, kind) ∈ declared s.context.entries ∧ type.AnnotatedIn s :=
  ⟨List.mem_flatMap.mpr ⟨_, hMem, List.mem_singleton.mpr rfl⟩, Discipline.entry_of_mem h hMem⟩

/-- Where definitions have the kinds of their variables, those of some entries
can be substituted. -/
theorem kind_of_definition {σ : Signature}
    (hDefine : ∀ x type kind, .define x type kind ∈ s.context.entries → HasKind σ type kind)
    {es : List (Entry language)} (hSubset : es ⊆ s.context.entries) :
    ∀ d ∈ definitions es, ∃ kind, (d.1, kind) ∈ declared s.context.entries ∧
      d.2.AnnotatedIn s ∧ HasKind σ d.2 kind := by
  intro d hd
  obtain ⟨kind, hMem⟩ := mem_definitions.mp hd
  obtain ⟨hDeclared, hType⟩ := annotated_define h (hSubset hMem)
  exact ⟨kind, hDeclared, hType, hDefine _ _ _ (hSubset hMem)⟩

end

def Kinded (σ : Signature) (p : Ty × Ty) : Prop := (∃ j, HasKind σ p.1 j) ∧ ∃ k, HasKind σ p.2 k

def Agrees (σ : Signature) (p : Ty × Ty) : Prop := ∃ k, HasKind σ p.1 k ∧ HasKind σ p.2 k

theorem Agrees.kinded {σ : Signature} {p : Ty × Ty} (h : Agrees σ p) : Kinded σ p := by
  obtain ⟨k, hl, hr⟩ := h
  exact ⟨⟨k, hl⟩, k, hr⟩

/-- Types of different kinds do not agree in their kinds, as a type has one kind
only. -/
theorem not_agrees {σ : Signature} {l r : Ty} {j k : Kind} (hl : HasKind σ l j)
    (hr : HasKind σ r k) (hNe : j ≠ k) : ¬Agrees σ (l, r) := by
  rintro ⟨i, hl', hr'⟩
  exact hNe ((hl.unique hl').trans (hr'.unique hr))

/-- Where the kinds of the first equation agree, those of the others do. Taking
apart two applications may give an equation of constructors of different kinds,
which comes before the one of their arguments. -/
def Guarded (σ : Signature) : List (Ty × Ty) → Prop
  | [] => True
  | p :: rest => Agrees σ p → ∀ q ∈ rest, Agrees σ q

/-- Where all equations agree in their kinds, nothing has to be
feared of the first one. -/
theorem guarded_of_agrees {σ : Signature} {ps : List (Ty × Ty)} (h : ∀ p ∈ ps, Agrees σ p) :
    Guarded σ ps := by
  cases ps with
  | nil => trivial
  | cons p rest => exact fun _ q hq => h q (List.mem_cons_of_mem _ hq)

/-- The types of a state have kinds, and its definitions the kinds
of their variables. -/
structure HasKinds (σ : Signature) (s : ClassState) : Prop where
  wellFormed : labelling.WellFormed s.context.entries
  define : ∀ x type kind, .define x type kind ∈ s.context.entries → HasKind σ type kind
  equation : ∀ p ∈ equations s.context.entries, Kinded σ p

namespace Effect

variable {σ : Signature} {s : ClassState} (hs : HasKinds σ s) {l r : Ty}
  {new : List (Name × Ty × Kind)} {left : List (Ty × Ty)} {j k : Kind}

include hs

/-- Substituting a definition of the state changes no kind. -/
theorem hasKind_subst1 {x : Name} {type t : Ty} {kind : Kind}
    (hDefine : .define x type kind ∈ s.context.entries) (ht : t.AnnotatedIn s)
    (h : HasKind σ t k) : HasKind σ (subst1 x type t) k :=
  HasKind.subst1 hs.wellFormed.nodup (annotated_define hs.wellFormed hDefine).1
    (hs.define x type kind hDefine) ht h

/-- What is left of an equation of types with kinds are equations of
types with kinds: the parts of a type that has a kind have kinds, and
so have definitions. -/
theorem kinded (h : Effect s.context.entries l r new left)
    (hl : l.AnnotatedIn s) (hr : r.AnnotatedIn s)
    (hj : HasKind σ l j) (hk : HasKind σ r k) : ∀ p ∈ left, Kinded σ p := by
  induction h generalizing j k with
  | keep l r => exact List.forall_mem_singleton.mpr ⟨⟨j, hj⟩, k, hk⟩
  | unfold hDefine l r =>
      exact List.forall_mem_singleton.mpr
        ⟨⟨j, hasKind_subst1 hs hDefine hl hj⟩, k, hasKind_subst1 hs hDefine hr hk⟩
  | solve => exact List.forall_mem_nil _
  | drop => exact List.forall_mem_nil _
  | con => exact List.forall_mem_nil _
  | app f a g b =>
      cases hj with
      | app hf ha =>
          cases hk with
          | app hg hb =>
              exact List.forall_mem_cons.mpr ⟨⟨⟨_, hf⟩, _, hg⟩,
                List.forall_mem_singleton.mpr ⟨⟨_, ha⟩, _, hb⟩⟩
  | turn _ ih => exact ih hr hl hk hj

/-- If the kinds of the two sides agree, a definition that comes about has the
kind of its variable. Of two applications that are taken apart, the arguments
agree in their kinds if the functions do, which is what guards the second
equation by the first. -/
theorem of_agrees (h : Effect s.context.entries l r new left) (hl : l.AnnotatedIn s)
    (hr : r.AnnotatedIn s) (hj : HasKind σ l k) (hk : HasKind σ r k) :
    (∀ d ∈ new, HasKind σ d.2.1 d.2.2) ∧ Guarded σ left := by
  induction h generalizing k with
  | keep l r => exact ⟨List.forall_mem_nil _, fun _ => List.forall_mem_nil _⟩
  | unfold => exact ⟨List.forall_mem_nil _, fun _ => List.forall_mem_nil _⟩
  | @solve x i kind r hDeclared =>
      have hKind : i = kind :=
        Name.eq_of_nodup hs.wellFormed.nodup (hl (x, i) List.mem_cons_self) hDeclared
      cases hj
      subst hKind
      exact ⟨List.forall_mem_singleton.mpr hk, trivial⟩
  | drop => exact ⟨List.forall_mem_nil _, trivial⟩
  | con => exact ⟨List.forall_mem_nil _, trivial⟩
  | app f a g b =>
      refine ⟨List.forall_mem_nil _, ?_⟩
      rintro ⟨i, hf, hg⟩
      cases hj with
      | app hf' ha =>
          cases hk with
          | app hg' hb =>
              cases (hf'.unique hf).trans (hg.unique hg')
              exact List.forall_mem_singleton.mpr ⟨_, ha, hb⟩
  | turn _ ih => exact ih hr hl hk hj

/-- If the kinds differ, they go on to differ, until a variable is
defined by another one. -/
theorem of_disagrees (h : Effect s.context.entries l r new left)
    (hl : l.AnnotatedIn s) (hr : r.AnnotatedIn s)
    (hj : HasKind σ l j) (hk : HasKind σ r k) (hNe : j ≠ k) :
    (new = [] ∧ ∃ p more, left = p :: more ∧ ¬Agrees σ p) ∨
      (∃ a b, l = .var a j ∧ r = .var b k) ∧ ∃ d ∈ new, d.2.1.kind ≠ .ok d.2.2 := by
  induction h generalizing j k with
  | keep l r => exact .inl ⟨rfl, _, _, rfl, not_agrees hj hk hNe⟩
  | unfold hDefine l r =>
      exact .inl ⟨rfl, _, _, rfl,
        not_agrees (hasKind_subst1 hs hDefine hl hj) (hasKind_subst1 hs hDefine hr hk) hNe⟩
  | @solve x i kind r hDeclared hKind =>
      have hSame : i = kind :=
        Name.eq_of_nodup hs.wellFormed.nodup (hl (x, i) List.mem_cons_self) hDeclared
      cases hj
      subst hSame
      -- The kinds would have been compared if the other side were no variable.
      have hVar : ∃ b, r = .var b k := by
        cases r with
        | var b i' =>
            cases hk
            exact ⟨b, rfl⟩
        | con c i' => exact absurd (Except.ok.inj ((hKind rfl).symm.trans hk.kind_eq)) hNe
        | app f a => exact absurd (Except.ok.inj ((hKind rfl).symm.trans hk.kind_eq)) hNe
      obtain ⟨b, rfl⟩ := hVar
      refine .inr ⟨⟨x, b, rfl, rfl⟩, _, List.mem_cons_self, fun hEq => ?_⟩
      exact hNe (Except.ok.inj hEq).symm
  | drop x i i' =>
      cases hj
      cases hk
      exact absurd (Name.eq_of_nodup hs.wellFormed.nodup (hl (x, i) List.mem_cons_self)
        (hr (x, i') List.mem_cons_self)) hNe
  | con c i i' =>
      cases hj
      cases hk
      exact absurd rfl hNe
  | app f a g b =>
      cases hj with
      | app hf ha =>
          cases hk with
          | app hg hb =>
              refine .inl ⟨rfl, _, _, rfl, not_agrees hf hg fun hEq => ?_⟩
              cases hEq
              exact hNe rfl
  | turn _ ih =>
      refine (ih hr hl hk hj hNe.symm).imp_right ?_
      rintro ⟨⟨a, b, ha, hb⟩, hNew⟩
      exact ⟨⟨b, a, hb, ha⟩, hNew⟩

end Effect

/-- The next step equates two variables of different kinds. -/
def Clashes (s : ClassState) : Prop :=
  ∃ a b j k rest, equations s.context.entries = (.var a j, .var b k) :: rest ∧ j ≠ k

/-- Some definition does not have the kind of its variable. -/
def Misdefines (s : ClassState) : Prop :=
  ∃ x type kind, .define x type kind ∈ s.context.entries ∧ type.kind ≠ .ok kind

section

variable {σ : Signature} {s t : ClassState}

/-- A step keeps every variable carrying the kind it is declared with. -/
theorem HasKinds.wellFormed_step (hs : HasKinds σ s) (h : s.Steps t) :
    labelling.WellFormed t.context.entries :=
  (equationsOnly.step_moves h.2).2.wellFormed labelling hs.wellFormed

/-- If the kinds of the first equation agree, a step leaves all types with
kinds. What follows the first equation is guarded by it, so the equations that
are left agree as long as those before them do. -/
theorem HasKinds.step_of_agrees (hs : HasKinds σ s)
    (hGuarded : Guarded σ (equations s.context.entries))
    (hFirst : ∀ p rest, equations s.context.entries = p :: rest → Agrees σ p) (h : s.Steps t) :
    HasKinds σ t ∧ Guarded σ (equations t.context.entries) := by
  obtain ⟨l, r, rest, new, left, hEquations, hEffect, hLeft, hDefine⟩ := step_effect h
  rw [hEquations] at hGuarded
  have hAgrees := hFirst _ _ hEquations
  have hRest := hGuarded hAgrees
  obtain ⟨k, hj, hk⟩ := hAgrees
  obtain ⟨hl, hr⟩ := annotated_first hs.wellFormed hEquations
  obtain ⟨hNew, hGuardedLeft⟩ := hEffect.of_agrees hs hl hr hj hk
  refine ⟨⟨hs.wellFormed_step h, fun x type kind hx => ?_, fun p hp => ?_⟩, ?_⟩
  · rcases (hDefine x type kind).mp hx with hx | hx
    · exact hNew _ hx
    · exact hs.define x type kind hx
  · rw [hLeft] at hp
    rcases List.mem_append.mp hp with hp | hp
    · exact hEffect.kinded hs hl hr hj hk p hp
    · exact (hRest p hp).kinded
  · rw [hLeft]
    cases left with
    | nil => exact guarded_of_agrees hRest
    | cons p left =>
        intro hp q hq
        exact (List.mem_append.mp hq).elim (hGuardedLeft hp q) (hRest q)

/-- If they differ, those of the first equation differ after the step as well,
or a variable has been defined by one of another kind. -/
theorem HasKinds.step_of_disagrees (hs : HasKinds σ s) {p : Ty × Ty} {rest : List (Ty × Ty)}
    (hFirst : equations s.context.entries = p :: rest) (hNot : ¬Agrees σ p) (h : s.Steps t) :
    (HasKinds σ t ∧ ∃ q more, equations t.context.entries = q :: more ∧ ¬Agrees σ q) ∨
      Clashes s ∧ Misdefines t := by
  obtain ⟨l, r, rest, new, left, hEquations, hEffect, hLeft, hDefine⟩ := step_effect h
  rw [hFirst] at hEquations
  cases hEquations
  have hKinded := hs.equation
  rw [hFirst] at hKinded
  obtain ⟨⟨⟨j, hj⟩, k, hk⟩, hRest⟩ := List.forall_mem_cons.mp hKinded
  have hNe : j ≠ k := by
    rintro rfl
    exact hNot ⟨j, hj, hk⟩
  obtain ⟨hl, hr⟩ := annotated_first hs.wellFormed hFirst
  rcases hEffect.of_disagrees hs hl hr hj hk hNe with
    ⟨rfl, q, more, rfl, hDiffers⟩ | ⟨⟨a, b, rfl, rfl⟩, ⟨x, type, kind⟩, hNew, hKind⟩
  · refine .inl ⟨⟨hs.wellFormed_step h, fun x type kind hx => ?_,
      fun p hp => ?_⟩, q, more ++ rest, hLeft, hDiffers⟩
    · rcases (hDefine x type kind).mp hx with hx | hx
      · cases hx
      · exact hs.define x type kind hx
    · rw [hLeft] at hp
      rcases List.mem_append.mp hp with hp | hp
      · exact hEffect.kinded hs hl hr hj hk p hp
      · exact hRest p hp
  · exact .inr ⟨⟨a, b, j, k, rest, hFirst, hNe⟩,
      x, type, kind, (hDefine x type kind).mpr (.inl hNew), hKind⟩

/-- A step that does not clash leaves types with kinds. -/
theorem HasKinds.step (hs : HasKinds σ s) (hGuarded : Guarded σ (equations s.context.entries))
    (hNever : ¬Clashes s) (h : s.Steps t) :
    HasKinds σ t ∧ Guarded σ (equations t.context.entries) := by
  by_cases hFirst : ∀ p rest, equations s.context.entries = p :: rest → Agrees σ p
  · exact hs.step_of_agrees hGuarded hFirst h
  · simp only [not_forall] at hFirst
    obtain ⟨p, rest, hEquations, hNot⟩ := hFirst
    obtain ⟨hKinds, q, more, hNext, hDiffers⟩ :=
      (hs.step_of_disagrees hEquations hNot h).resolve_right fun hClash => hNever hClash.1
    refine ⟨hKinds, ?_⟩
    rw [hNext]
    exact fun hAgrees => absurd hAgrees hDiffers

/-- Definitions stay. -/
theorem Misdefines.unify (hs : Misdefines s) (hRun : s.unify = .ok t) : Misdefines t := by
  fun_induction State.unify s with
  | case1 s hCan u hStep ih =>
      refine ih ?_ hRun
      obtain ⟨x, type, kind, hMem, hKind⟩ := hs
      obtain ⟨l, r, rest, new, left, -, -, -, hDefine⟩ := step_effect ⟨hCan, hStep⟩
      exact ⟨x, type, kind, (hDefine x type kind).mpr (.inr hMem), hKind⟩
  | case2 s hCan e hStep => cases hRun
  | case3 s hCan =>
      cases hRun
      exact hs

/-- A run that starts with an equation of types of different kinds comes to a
clash, and ends with a variable defined at a kind that is not its own. -/
theorem HasKinds.clash_of_disagrees (hs : HasKinds σ s) {p : Ty × Ty} {rest : List (Ty × Ty)}
    (hFirst : equations s.context.entries = p :: rest) (hNot : ¬Agrees σ p)
    (hRun : s.unify = .ok t) : (∃ u, s.Reaches u ∧ Clashes u) ∧ Misdefines t := by
  fun_induction State.unify s generalizing p rest with
  | case1 s hCan u hStep ih =>
      have hSteps : s.Steps u := ⟨hCan, hStep⟩
      rcases hs.step_of_disagrees hFirst hNot hSteps with
        ⟨hKinds, q, more, hNext, hDiffers⟩ | ⟨hClashes, hMisdefines⟩
      · obtain ⟨⟨v, hReaches, hClashes⟩, hMisdefines⟩ := ih hKinds hNext hDiffers hRun
        exact ⟨⟨v, .head hSteps hReaches, hClashes⟩, hMisdefines⟩
      · exact ⟨⟨s, .refl, hClashes⟩, hMisdefines.unify hRun⟩
  | case2 s hCan e hStep => cases hRun
  | case3 s hCan =>
      rw [equations_of_settled (State.settled_of_not_canStep hCan)] at hFirst
      cases hFirst

/-- No clash is due where the sides of the first equation agree in their kinds. -/
theorem not_clashes_of_agrees
    (hFirst : ∀ p rest, equations s.context.entries = p :: rest → Agrees σ p) : ¬Clashes s := by
  rintro ⟨a, b, j, k, rest, hEquations, hNe⟩
  exact not_agrees (.var a j) (.var b k) hNe (hFirst _ _ hEquations)

/-- A run that never equates variables of different kinds defines all variables
by types of their kinds, and any other run does not. -/
theorem HasKinds.unify (hs : HasKinds σ s) (hGuarded : Guarded σ (equations s.context.entries))
    (hRun : s.unify = .ok t) :
    ((∀ x type kind, .define x type kind ∈ t.context.entries → HasKind σ type kind) ∧
      ∀ u, s.Reaches u → ¬Clashes u) ∨
    (∃ u, s.Reaches u ∧ Clashes u) ∧ Misdefines t := by
  fun_induction State.unify s with
  | case1 s hCan u hStep ih =>
      have hSteps : s.Steps u := ⟨hCan, hStep⟩
      by_cases hFirst : ∀ p rest, equations s.context.entries = p :: rest → Agrees σ p
      · obtain ⟨hKinds, hGuarded⟩ := hs.step_of_agrees hGuarded hFirst hSteps
        refine (ih hKinds hGuarded hRun).imp ?_ ?_
        · rintro ⟨hDefinitions, hNever⟩
          refine ⟨hDefinitions, fun v hReaches => ?_⟩
          rcases hReaches.eq_or_reaches hSteps with rfl | hReaches
          · exact not_clashes_of_agrees hFirst
          · exact hNever v hReaches
        · rintro ⟨⟨v, hReaches, hClashes⟩, hMisdefines⟩
          exact ⟨⟨v, .head hSteps hReaches, hClashes⟩, hMisdefines⟩
      · simp only [not_forall] at hFirst
        obtain ⟨p, rest, hEquations, hNot⟩ := hFirst
        refine .inr (hs.clash_of_disagrees hEquations hNot ?_)
        rw [hSteps.unify_eq]
        exact hRun
  | case2 s hCan e hStep => cases hRun
  | case3 s hCan =>
      cases hRun
      have hNone := equations_of_settled (State.settled_of_not_canStep hCan)
      refine .inl ⟨hs.define, fun u hReaches => ?_⟩
      rw [hReaches.eq_of_not_canStep (by simpa using hCan)]
      rintro ⟨a, b, j, k, rest, hEquations, -⟩
      rw [hNone] at hEquations
      cases hEquations

end

/-- Two kinds that differ in the kinds of some arguments only. -/
inductive Kind.Alike : Kind → Kind → Prop where
  | refl (k : Kind) : Alike k k
  | arrow (i i' : Kind) {j k : Kind} (h : Alike j k) : Alike (.arrow i j) (.arrow i' k)

theorem Kind.Alike.symm {j k : Kind} (h : Kind.Alike j k) : Kind.Alike k j := by
  induction h with
  | refl k => exact .refl k
  | arrow i i' _ ih => exact .arrow i' i ih

/-- Kinds that take no constructors have no such arguments to differ in, so they
are alike only if they are equal. -/
theorem Kind.Alike.eq_of_constructor {j k : Kind} (h : Kind.Alike j k)
    (hj : ∃ m, j = .constructor m) (hk : ∃ n, k = .constructor n) : j = k := by
  induction h with
  | refl k => rfl
  | arrow i i' _ ih =>
      obtain ⟨m, hm⟩ := hj
      obtain ⟨n, hn⟩ := hk
      cases m with
      | zero => cases hm
      | succ m =>
          cases n with
          | zero => cases hn
          | succ n =>
              cases hm
              cases hn
              rw [ih ⟨m, rfl⟩ ⟨n, rfl⟩]

/-- The kinds of the first equation are alike. -/
def Steady (σ : Signature) : List (Ty × Ty) → Prop
  | [] => True
  | p :: _ => ∃ j k, HasKind σ p.1 j ∧ HasKind σ p.2 k ∧ Kind.Alike j k

/-- All variables have kinds that take no constructors. -/
def FirstOrder (s : ClassState) : Prop :=
  ∀ p ∈ declared s.context.entries, ∃ n, p.2 = .constructor n

section

variable {σ : Signature} {s t : ClassState}

/-- Equations that agree in their kinds are steady: their kinds are not just
alike but the same. -/
theorem steady_of_agrees {ps : List (Ty × Ty)} (h : ∀ p ∈ ps, Agrees σ p) : Steady σ ps := by
  cases ps with
  | nil => trivial
  | cons p rest =>
      obtain ⟨k, hl, hr⟩ := h p List.mem_cons_self
      exact ⟨k, k, hl, hr, .refl k⟩

/-- An equation of types of alike kinds leaves one first. -/
theorem Effect.steady (hs : HasKinds σ s) {l r : Ty} {new : List (Name × Ty × Kind)}
    {left : List (Ty × Ty)} {j k : Kind} (h : Effect s.context.entries l r new left)
    (hl : l.AnnotatedIn s) (hr : r.AnnotatedIn s)
    (hj : HasKind σ l j) (hk : HasKind σ r k) (hAlike : Kind.Alike j k) : Steady σ left := by
  induction h generalizing j k with
  | keep l r => exact ⟨j, k, hj, hk, hAlike⟩
  | unfold hDefine l r =>
      exact ⟨j, k, hasKind_subst1 hs hDefine hl hj, hasKind_subst1 hs hDefine hr hk, hAlike⟩
  | solve => trivial
  | drop => trivial
  | con => trivial
  | app f a g b =>
      cases hj with
      | app hf ha =>
          cases hk with
          | app hg hb => exact ⟨_, _, hf, hg, .arrow _ _ hAlike⟩
  | turn _ ih => exact ih hr hl hk hj hAlike.symm

/-- Two variables of alike kinds that take no constructors have one kind, so
equating them is no clash. -/
theorem not_clashes_of_steady (hs : HasKinds σ s) (hFirst : FirstOrder s)
    (hSteady : Steady σ (equations s.context.entries)) : ¬Clashes s := by
  rintro ⟨a, b, j, k, rest, hEquations, hNe⟩
  obtain ⟨hLeft, hRight⟩ := annotated_first hs.wellFormed hEquations
  rw [hEquations] at hSteady
  obtain ⟨j', k', hj, hk, hAlike⟩ := hSteady
  cases hj
  cases hk
  exact hNe (hAlike.eq_of_constructor (hFirst _ (hLeft (a, j) List.mem_cons_self))
    (hFirst _ (hRight (b, k) List.mem_cons_self)))

/-- A step that is no clash leaves steady equations steady. If
nothing is left of the first equation, then its kinds have agreed,
and those of the others do. -/
theorem Steady.step (hSteady : Steady σ (equations s.context.entries)) (hs : HasKinds σ s)
    (hGuarded : Guarded σ (equations s.context.entries)) (hNever : ¬Clashes s) (h : s.Steps t) :
    Steady σ (equations t.context.entries) := by
  obtain ⟨l, r, rest, new, left, hEquations, hEffect, hLeft, -⟩ := step_effect h
  obtain ⟨hl, hr⟩ := annotated_first hs.wellFormed hEquations
  rw [hEquations] at hSteady hGuarded
  obtain ⟨j, k, hj, hk, hAlike⟩ := hSteady
  have hSteadyLeft := hEffect.steady hs hl hr hj hk hAlike
  rw [hLeft]
  cases left with
  | cons p left => exact hSteadyLeft
  | nil =>
      -- Nothing is left of the equation, so its kinds agreed and those of the others do.
      have hEq : j = k := by
        by_contra hNe
        rcases hEffect.of_disagrees hs hl hr hj hk hNe with
          ⟨-, p, more, hNil, -⟩ | ⟨⟨a, b, rfl, rfl⟩, -⟩
        · cases hNil
        · exact hNever ⟨a, b, j, k, rest, hEquations, hNe⟩
      subst hEq
      exact steady_of_agrees (hGuarded ⟨j, hj, hk⟩)

/-- Moves declare no variables but those there were, so none that take
constructors. -/
theorem FirstOrder.moves (h : FirstOrder s) (hMoves : Moves s.context.entries t.context.entries) :
    FirstOrder t := fun p hp => h p (hMoves.declared_perm.subset hp)

/-- The invariant of runs in which no variable takes constructors: the
kinds of the first equation are alike, so it is no equation of two
variables if they differ. -/
structure FirstOrderKinds (σ : Signature) (s : ClassState) : Prop where
  hasKinds : HasKinds σ s
  guarded : Guarded σ (equations s.context.entries)
  steady : Steady σ (equations s.context.entries)
  firstOrder : FirstOrder s

/-- The invariant holds where a run begins with equations that agree in their
kinds. -/
theorem FirstOrderKinds.of_agrees (hs : HasKinds σ s)
    (hAgrees : ∀ p ∈ equations s.context.entries, Agrees σ p) (hFirst : FirstOrder s) :
    FirstOrderKinds σ s :=
  ⟨hs, guarded_of_agrees hAgrees, steady_of_agrees hAgrees, hFirst⟩

/-- A step keeps all three parts of the invariant. -/
theorem FirstOrderKinds.step (hs : FirstOrderKinds σ s) (h : s.Steps t) : FirstOrderKinds σ t := by
  have hNever := not_clashes_of_steady hs.hasKinds hs.firstOrder hs.steady
  obtain ⟨hKinds, hGuarded⟩ := hs.hasKinds.step hs.guarded hNever h
  exact ⟨hKinds, hGuarded, hs.steady.step hs.hasKinds hs.guarded hNever h,
    hs.firstOrder.moves (equationsOnly.step_moves h.2).2⟩

/-- Where no variable takes constructors, variables of different
kinds are never equated. -/
theorem FirstOrderKinds.not_clashes (hs : FirstOrderKinds σ s) (h : s.Reaches t) : ¬Clashes t := by
  have hKinds : FirstOrderKinds σ t := by
    induction h with
    | refl => exact hs
    | tail _ hLast ih => exact ih.step hLast
  exact not_clashes_of_steady hKinds.hasKinds hKinds.firstOrder hKinds.steady

end

end HindleyMilner.Classes
