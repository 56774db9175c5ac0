import HindleyMilner.Proofs.Declarations
import HindleyMilner.Solver.Outcomes
import Mathlib.Logic.Relation

/-! What the solver does to a context, as rewriting of neighbouring entries. A
step of an equation is made of a few moves, and every invariant of the solver is
shown for one move at a time. -/
namespace HindleyMilner

variable {L : Language}

namespace Goal

variable [Sized L] [FreeVars L.Special]

def freeVars : Goal L → List Name
  | eq l r => FreeVars.freeVars l ++ FreeVars.freeVars r
  | special g =>
      match Sized.specialSides g with
      | some (l, r) => FreeVars.freeVars l ++ FreeVars.freeVars r
      | none => FreeVars.freeVars g

/-- The variables of an equation are those of its two sides. -/
theorem freeVars_of_sides {g : Goal L} {l r : L.Ty} (h : g.sides = some (l, r)) :
    g.freeVars = FreeVars.freeVars l ++ FreeVars.freeVars r := by
  cases g with
  | eq a b => cases h; rfl
  | special g => simp only [freeVars, show Sized.specialSides g = some (l, r) from h]

/-- Whether a goal may carry a variable past other entries: the variable is a
part of what the goal determines. -/
def Anchors (g : Goal L) (x : Name) : Prop :=
  match g.sides with
  | some (l, r) => (∃ a, L.asVar? l = some a ∧ x ≠ a) ∧ x ∈ FreeVars.freeVars r
  | none => x ∈ g.freeVars

/-- An equation anchors the variables on its right, if there is another
variable on its left. -/
theorem anchors_of_sides {g : Goal L} {l r : L.Ty} (h : g.sides = some (l, r)) {x : Name} :
    g.Anchors x ↔ (∃ a, L.asVar? l = some a ∧ x ≠ a) ∧ x ∈ FreeVars.freeVars r := by
  rw [Anchors, h]

end Goal

variable [Rules L] [Sized L] [FreeVars L.Special]

/-- One rewriting of neighbouring entries. -/
inductive Move : List (Entry L) → List (Entry L) → Prop where
  /-- The sides of an equation change places. -/
  | recast {deps : L.Telescope} {l r : L.Ty} (hDeps : L.asVar? l = none ∨ deps = []) :
      Move [.constraint ⟨deps, .eq l r⟩] [.constraint ⟨deps, .eq r l⟩]
  /-- A constraint puts down the variables it carries. -/
  | lower (deps : L.Telescope) (g : Goal L) :
      Move [.constraint ⟨deps, g⟩] (deps.intros ++ [.ofGoal g])
  /-- An unsolved variable goes below another variable. -/
  | sink {e : Entry L} (he : e.isVariable = true) (x : Name) (kind : L.Kind) :
      Move [e, .intro x kind] [.intro x kind, e]
  /-- A constraint passes an entry that does not concern it. -/
  | pass {e : Entry L} {c : Constraint L} (he : e.isConstraint = false)
      (hFree : ∀ p ∈ e.declared, p.1 ∉ c.goal.freeVars) :
      Move [e, .constraint c] [.constraint c, e]
  /-- A constraint takes up a variable. -/
  | lift {x : Name} {kind : L.Kind} {deps : L.Telescope} {g : Goal L} (hAnchors : g.Anchors x) :
      Move [.intro x kind, .constraint ⟨deps, g⟩] [.constraint ⟨(x, kind) :: deps, g⟩]
  /-- An equation passes a definition, which is substituted in it. -/
  | unfold {x : Name} {type l r : L.Ty} {kind : L.Kind} {g : Goal L}
      (hSides : g.sides = some (l, r)) :
      Move [.define x type kind, .ofGoal g]
        [.ofGoal (.eq (subst1 x type l) (subst1 x type r)), .define x type kind]
  /-- An equation becomes a definition of its variable. -/
  | solve {x : Name} {kind : L.Kind} {l r : L.Ty} {g : Goal L} (hSides : g.sides = some (l, r))
      (hVar : L.asVar? l = some x) (hFree : x ∉ freeVars r) :
      Move [.intro x kind, .ofGoal g] [.define x r kind]
  /-- The equation of a variable with itself goes. -/
  | drop {x : Name} {l r : L.Ty} (hLeft : L.asVar? l = some x) (hRight : L.asVar? r = some x) :
      Move [.ofGoal (.eq l r)] []
  /-- An equation is taken apart. -/
  | split {l r : L.Ty} {goals : List (Goal L)} (h : Rules.decompose l r = .ok goals) :
      Move [.ofGoal (.eq l r)] (goals.map .ofGoal)

inductive Rewrites : List (Entry L) → List (Entry L) → Prop where
  | mk (pre post : List (Entry L)) {old new : List (Entry L)} (h : Move old new) :
      Rewrites (pre ++ (old ++ post)) (pre ++ (new ++ post))

abbrev Moves : List (Entry L) → List (Entry L) → Prop := Relation.ReflTransGen Rewrites

namespace Moves

open Context

theorem of_move {old new : List (Entry L)} (h : Move old new) : Moves old new := by
  have hHere := Rewrites.mk [] [] h
  simp only [List.nil_append, List.append_nil] at hHere
  exact Relation.ReflTransGen.single hHere

/-- Moves can be made in the middle of a context, whatever stands around. -/
theorem middle (pre post : List (Entry L)) {old new : List (Entry L)} (h : Moves old new) :
    Moves (pre ++ (old ++ post)) (pre ++ (new ++ post)) := by
  induction h with
  | refl => exact .refl
  | tail _ hLast ih =>
      refine ih.tail ?_
      obtain ⟨inner, outer, hMove⟩ := hLast
      have hWider := Rewrites.mk (pre ++ inner) (outer ++ post) hMove
      simpa only [List.append_assoc] using hWider

theorem append_left (pre : List (Entry L)) {old new : List (Entry L)} (h : Moves old new) :
    Moves (pre ++ old) (pre ++ new) := by
  simpa only [List.append_nil] using h.middle pre []

theorem append_right (post : List (Entry L)) {old new : List (Entry L)} (h : Moves old new) :
    Moves (old ++ post) (new ++ post) := h.middle [] post

/-- A variable goes below all that are introduced after it, one at a time. -/
theorem sink_all {e : Entry L} (he : e.isVariable = true) (deps : L.Telescope) :
    Moves (e :: deps.intros) (deps.intros ++ [e]) := by
  induction deps with
  | nil => exact .refl
  | cons d deps ih =>
      have hFirst : Moves (e :: .intro d.1 d.2 :: Language.Telescope.intros deps)
          (.intro d.1 d.2 :: e :: Language.Telescope.intros deps) :=
        (of_move (.sink he d.1 d.2)).append_right _
      exact hFirst.trans (ih.append_left [_])

/-- A constraint that has come to a variable puts down the variables it carries,
below that variable. -/
theorem put_down {e : Entry L} (he : e.isVariable = true) (deps : L.Telescope) (g : Goal L) :
    Moves [e, .constraint ⟨deps, g⟩] (deps.intros ++ [e, .ofGoal g]) := by
  have hLower : Moves [e, .constraint ⟨deps, g⟩] (e :: deps.intros ++ [.ofGoal g]) :=
    (of_move (.lower deps g)).append_left [e]
  have hSink := (sink_all he deps).append_right [.ofGoal g]
  rw [List.append_assoc] at hSink
  exact hLower.trans hSink

/-- A constraint goes past a variable that it does not mention. -/
theorem pass_variable {e : Entry L} (he : e.isVariable = true) (deps : L.Telescope) {g : Goal L}
    (hFree : ∀ p ∈ e.declared, p.1 ∉ g.freeVars) :
    Moves [e, .constraint ⟨deps, g⟩] (deps.intros ++ [.ofGoal g, e]) := by
  have hNotConstraint : e.isConstraint = false := by
    cases e with
    | constraint c => cases he
    | _ => rfl
  exact (put_down he deps g).trans
    ((of_move (.pass (c := .ofGoal g) hNotConstraint hFree)).append_left _)

/-- What is fixed declares nothing, so every constraint may pass it. -/
theorem pass_fixed {e : Entry L} (he : e.isFixed = true) (c : Constraint L) :
    Moves [e, .constraint c] [.constraint c, e] := by
  apply of_move
  cases e with
  | bind x scheme => exact .pass rfl (List.forall_mem_nil _)
  | marker => exact .pass rfl (List.forall_mem_nil _)
  | declare d => exact .pass rfl (List.forall_mem_nil _)
  | _ => cases he

end Moves

namespace Context

/-- Every constraint determines the variables it carries. -/
def Anchored (es : List (Entry L)) : Prop :=
  ∀ c, .constraint c ∈ es → ∀ p ∈ c.deps, c.goal.Anchors p.1

omit [Rules L] in
/-- Constraints are anchored one by one. -/
theorem anchored_append {es fs : List (Entry L)} :
    Anchored (es ++ fs) ↔ Anchored es ∧ Anchored fs := by
  simp only [Anchored, List.mem_append, or_imp, forall_and]

omit [Rules L] in
theorem anchored_ofGoal (g : Goal L) : Anchored [.ofGoal g] := by
  intro c hc p hp
  cases List.mem_singleton.mp hc
  cases hp

omit [Rules L] in
/-- Where there are no constraints, there is nothing to anchor. -/
theorem anchored_of_settled {es : List (Entry L)} (h : Settled es) : Anchored es := by
  intro c hc
  cases h _ hc

end Context

namespace Move

open Context

/-- A move declares the same variables, up to their order. -/
theorem declared_perm {old new : List (Entry L)} (h : Move old new) :
    (declared new).Perm (declared old) := by
  cases h with
  | recast => exact .refl _
  | lower deps g =>
      rw [declared_append, declared_intros]
      exact .of_eq rfl
  | @sink e he x kind =>
      change ([(x, kind)] ++ (e.declared ++ [])).Perm (e.declared ++ ([(x, kind)] ++ []))
      simpa only [List.append_nil] using List.perm_append_comm
  | @pass e c he hFree =>
      change (c.deps ++ (e.declared ++ [])).Perm (e.declared ++ (c.deps ++ []))
      simpa only [List.append_nil] using List.perm_append_comm
  | lift => exact .refl _
  | unfold => exact .refl _
  | solve => exact .refl _
  | drop => exact .refl _
  | split =>
      rw [declared_ofGoals]
      exact .refl _

/-- A move keeps fixed entries and what is declared below them. A constraint
that passes a fixed entry takes its variables down with it, so that more may be
declared below, but no less. -/
theorem toExtends {old new : List (Entry L)} (h : Move old new) : Extends old new := by
  have hSubset : declared old ⊆ declared new := h.declared_perm.symm.subset
  cases h with
  | lower deps g =>
      refine .of_fixed_nil rfl ?_ hSubset
      rw [fixed_append, fixed_intros]
      rfl
  | @sink e he x kind =>
      have hFixed := Entry.isFixed_of_isVariable he
      refine .of_fixed_nil ?_ ?_ hSubset
      · rw [fixed_cons_of_not hFixed]
        rfl
      · rw [fixed_cons_of_not rfl, fixed_cons_of_not hFixed]
        rfl
  | @pass e c he hFree =>
      cases hFixed : e.isFixed with
      | false =>
          refine .of_fixed_nil ?_ ?_ hSubset
          · rw [fixed_cons_of_not hFixed]
            rfl
          · rw [fixed_cons_of_not rfl, fixed_cons_of_not hFixed]
            rfl
      | true =>
          -- The variables that the constraint carries come below the fixed entry.
          refine ⟨by rw [fixed_cons_of_not rfl, fixed_cons hFixed, fixed_cons hFixed]; rfl, ?_⟩
          intro n
          cases n with
          | zero =>
              rw [declaredBelow_zero hFixed]
              exact List.nil_subset _
          | succ n =>
              rw [declaredBelow_succ hFixed, declaredBelow_cons rfl, declaredBelow_cons rfl,
                declaredBelow_succ hFixed]
              exact List.Subset.refl _
  | split => exact .of_fixed_nil rfl (fixed_ofGoals _) hSubset
  | recast => exact .of_fixed_nil rfl rfl hSubset
  | lift => exact .of_fixed_nil rfl rfl hSubset
  | unfold => exact .of_fixed_nil rfl rfl hSubset
  | solve => exact .of_fixed_nil rfl rfl hSubset
  | drop => exact .of_fixed_nil rfl rfl hSubset

/-- A constraint passes a fixed entry with what it carries only if it anchors
it, and it is not changed on the way. -/
theorem anchored {old new : List (Entry L)} (h : Move old new) (hOld : Anchored old) :
    Anchored new := by
  cases h with
  | @recast deps l r hDeps =>
      have hNil : deps = [] := by
        rcases hDeps with hRigid | hNil
        · refine List.eq_nil_iff_forall_not_mem.mpr fun p hp => ?_
          have hAnchors := hOld _ (List.mem_singleton.mpr rfl) p hp
          obtain ⟨⟨a, ha, -⟩, -⟩ := (Goal.anchors_of_sides (g := .eq l r) rfl).mp hAnchors
          rw [hRigid] at ha
          cases ha
        · exact hNil
      subst hNil
      exact anchored_ofGoal _
  | lower deps g =>
      exact anchored_append.mpr ⟨anchored_of_settled (settled_intros deps), anchored_ofGoal g⟩
  | @sink e he x kind =>
      rw [← List.singleton_append, anchored_append] at hOld ⊢
      exact hOld.symm
  | @pass e c he hFree =>
      rw [← List.singleton_append, anchored_append] at hOld ⊢
      exact hOld.symm
  | @lift x kind deps g hAnchors =>
      intro c hc p hp
      cases List.mem_singleton.mp hc
      rcases List.mem_cons.mp hp with rfl | hp
      · exact hAnchors
      · exact hOld _ (List.mem_cons_of_mem _ (List.mem_singleton.mpr rfl)) p hp
  | @unfold x type l r kind g hSides =>
      rw [← List.singleton_append, anchored_append] at hOld ⊢
      exact ⟨anchored_ofGoal _, hOld.1⟩
  | solve => exact anchored_of_settled (by simp [Settled, Entry.isConstraint])
  | drop => exact anchored_of_settled (by simp [Settled])
  | @split l r goals h =>
      intro c hc p hp
      obtain ⟨g, -, hg⟩ := List.mem_map.mp hc
      cases hg
      cases hp

end Move

namespace Moves

open Context

theorem declared_perm {es fs : List (Entry L)} (h : Moves es fs) :
    (declared fs).Perm (declared es) := by
  induction h with
  | refl => exact .refl _
  | tail _ hLast ih =>
      obtain ⟨pre, post, hMove⟩ := hLast
      refine .trans ?_ ih
      simp only [declared_append]
      exact (hMove.declared_perm.append_right _).append_left _

theorem toExtends {es fs : List (Entry L)} (h : Moves es fs) : Extends es fs := by
  induction h with
  | refl => exact .refl _
  | tail _ hLast ih =>
      obtain ⟨pre, post, hMove⟩ := hLast
      exact ih.trans (hMove.toExtends.middle pre post)

theorem anchored {es fs : List (Entry L)} (h : Moves es fs) (hOld : Anchored es) :
    Anchored fs := by
  induction h with
  | refl => exact hOld
  | tail _ hLast ih =>
      obtain ⟨pre, post, hMove⟩ := hLast
      simp only [anchored_append] at ih ⊢
      exact ⟨ih.1, hMove.anchored ih.2.1, ih.2.2⟩

end Moves

namespace Focus

open Context

/-- A constraint meets the entry below it. What is fixed it can only pass. -/
inductive Descends : Focus L → Constraint L → State L → Prop where
  | meet {supply : Supply} {top : Entry L} {below above emitted : List (Entry L)}
      {c : Constraint L} (hTop : top.isFixed = false) (h : Moves [top, .constraint c] emitted) :
      Descends ⟨supply, top :: below, above⟩ c (Focus.resume ⟨supply, below, above⟩ emitted)
  | pass {supply : Supply} {top : Entry L} {below above : List (Entry L)} {c : Constraint L}
      (hTop : top.isFixed = true) :
      Descends ⟨supply, top :: below, above⟩ c
        (Focus.resume ⟨supply, below, above⟩ [.constraint c, top])

/-- A descent is a sequence of moves that draws no names. -/
theorem Descends.moves {f : Focus L} {c : Constraint L} {t : State L} (h : f.Descends c t) :
    t.supply = f.supply ∧ Moves (f.resume [.constraint c]).context.entries t.context.entries := by
  -- The entry and the constraint are neighbours, and the others stay where they are.
  have hNeighbours : ∀ {top : Entry L} {below above emitted : List (Entry L)},
      Moves [top, .constraint c] emitted →
      Moves ((top :: below).reverse ++ ([.constraint c] ++ above))
        (below.reverse ++ (emitted ++ above)) := by
    intro top below above emitted hMoves
    simpa using hMoves.middle below.reverse above
  cases h with
  | meet hTop h => exact ⟨rfl, hNeighbours h⟩
  | pass hTop => exact ⟨rfl, hNeighbours (Moves.pass_fixed hTop c)⟩

/-- A constraint may go past an entry that declares none of its variables,
be it fixed or not. -/
theorem Descends.of_pass {supply : Supply} {top : Entry L} {below above : List (Entry L)}
    {c : Constraint L} (hTop : top.isConstraint = false)
    (hFree : ∀ p ∈ top.declared, p.1 ∉ c.goal.freeVars) :
    Descends ⟨supply, top :: below, above⟩ c
      (Focus.resume ⟨supply, below, above⟩ [.constraint c, top]) := by
  cases hFixed : top.isFixed with
  | true => exact .pass hFixed
  | false => exact .meet hFixed (.of_move (.pass hTop hFree))

/-- An equation between a variable and another type goes down entry by entry. It
defines its variable where that is introduced, takes variables of the other side
along, has definitions substituted, and passes everything else. -/
theorem walk_descends {f : Focus L} {goal : Goal L} {deps : L.Telescope} {eq : FlexRigid L}
    {t : State L} (hSides : goal.sides = some (eq.flex, eq.rigid))
    (hFlex : L.asVar? eq.flex = some eq.name) (h : f.walk goal deps eq = .ok t) :
    f.Descends ⟨deps, goal⟩ t := by
  have hOther : ∀ x, x ≠ eq.name → x ∉ freeVars eq.rigid → x ∉ goal.freeVars := by
    intro x hName hFree hx
    rw [Goal.freeVars_of_sides hSides, List.mem_append] at hx
    rcases hx with hx | hx
    · exact hName (Sized.eq_of_mem_freeVars hFlex hx)
    · exact hFree hx
  cases walk_meets h with
  | mk hWalked =>
      cases hWalked with
      | solve hFree =>
          exact .meet rfl ((Moves.put_down rfl deps goal).trans
            ((Moves.of_move (.solve hSides hFlex hFree)).append_left _))
      | lift hName hMentions =>
          exact .meet rfl (.of_move (.lift ((Goal.anchors_of_sides hSides).mpr
            ⟨⟨_, hFlex, hName⟩, hMentions⟩)))
      | unfold =>
          exact .meet rfl ((Moves.put_down rfl deps goal).trans
            ((Moves.of_move (.unfold hSides)).append_left _))
      | skip hName hFree =>
          refine .meet rfl (Moves.pass_variable rfl deps fun p hp => ?_)
          rw [List.mem_singleton.mp hp]
          exact hOther _ hName hFree
      | pass hTop hDefinition hUnused =>
          refine .of_pass hTop fun p hp => ?_
          obtain ⟨hName, hFree⟩ := hUnused _ _ (Entry.eq_intro_of_mem_declared hTop hDefinition hp)
          exact hOther p.1 hName hFree

/-- So does an equation between two variables, which defines the one
that it comes to first. If that is the one on the right, the equation is
turned round before. -/
theorem meetVars_descends {f : Focus L} {a b : Name} {l r : L.Ty} {t : State L} (hNe : a ≠ b)
    (hLeft : L.asVar? l = some a) (hRight : L.asVar? r = some b)
    (h : f.meetVars a b l r = .ok t) : f.Descends (.ofGoal (.eq l r)) t := by
  have hOther : ∀ x, x ≠ a → x ≠ b → x ∉ (Goal.eq l r).freeVars := by
    intro x ha hb hx
    rcases List.mem_append.mp hx with hx | hx
    · exact ha (Sized.eq_of_mem_freeVars hLeft hx)
    · exact hb (Sized.eq_of_mem_freeVars hRight hx)
  cases meetVars_meets h with
  | mk hMet =>
      cases hMet with
      | left =>
          exact .meet rfl (.of_move (.solve rfl hLeft
            fun hx => hNe (Sized.eq_of_mem_freeVars hRight hx)))
      | @right kind =>
          -- The equation is turned round before its right side is defined.
          have hRecast : Moves [.intro b kind, .ofGoal (.eq l r)]
              [.intro b kind, .ofGoal (.eq r l)] :=
            (Moves.of_move (.recast (.inr rfl))).append_left [_]
          exact .meet rfl (hRecast.trans (Moves.of_move (.solve rfl hRight
            fun hx => hNe (Sized.eq_of_mem_freeVars hLeft hx).symm)))
      | unfold => exact .meet rfl (.of_move (.unfold rfl))
      | skip ha hb =>
          refine .meet rfl (.of_move (.pass rfl fun p hp => ?_))
          rw [List.mem_singleton.mp hp]
          exact hOther _ ha hb
      | pass hTop hDefinition hUnused =>
          refine .of_pass hTop fun p hp => ?_
          obtain ⟨ha, hb⟩ := hUnused _ _ (Entry.eq_intro_of_mem_declared hTop hDefinition hp)
          exact hOther p.1 ha hb

/-- An equation between a variable and another type descends, unless the
language has constraints to put in its place. -/
theorem flexRigid_moves {f : Focus L} {deps : L.Telescope} {eq : FlexRigid L} {t : State L}
    (hFlex : L.asVar? eq.flex = some eq.name) (h : f.flexRigid deps eq = .ok t) :
    (t.supply = f.supply ∧
      Moves (f.resume [.constraint ⟨deps, .eq eq.flex eq.rigid⟩]).context.entries
        t.context.entries) ∨
    ∃ supply constraints, Rules.flexRigid f.supply deps eq = .ok (some (supply, constraints)) ∧
      t = { f with supply }.resume (constraints.map .constraint) := by
  obtain ⟨made, hRules, h⟩ := bind_eq_ok.mp h
  cases made with
  | none => exact .inl (walk_descends rfl hFlex h).moves
  | some made =>
      cases h
      exact .inr ⟨_, _, hRules, rfl⟩

/-- A step of an equation is made of moves, unless the language replaces an
equation between a variable and another type by constraints of its own. -/
theorem solveEq_moves {f : Focus L} {deps : L.Telescope} {l r : L.Ty} {t : State L}
    (h : f.solveEq deps l r = .ok t) :
    (t.supply = f.supply ∧
      Moves (f.resume [.constraint ⟨deps, .eq l r⟩]).context.entries t.context.entries) ∨
    ∃ eq : FlexRigid L, L.asVar? eq.flex = some eq.name ∧ L.asVar? eq.rigid = none ∧
      ((l = eq.flex ∧ r = eq.rigid) ∨ (l = eq.rigid ∧ r = eq.flex)) ∧
      ∃ supply constraints, Rules.flexRigid f.supply deps eq = .ok (some (supply, constraints)) ∧
        t = { f with supply }.resume (constraints.map .constraint) := by
  -- The variables that the equation carries are put down first.
  have hLowered : ∀ {emitted : List (Entry L)}, Moves [.ofGoal (.eq l r)] emitted →
      Moves (f.resume [.constraint ⟨deps, .eq l r⟩]).context.entries
        (f.resume (deps.intros ++ emitted)).context.entries := fun hMoves =>
    Moves.middle _ _ ((Moves.of_move (.lower deps _)).trans (hMoves.append_left _))
  cases equated_of_solveEq h with
  | @left x _ hl hr hFlex =>
      refine (flexRigid_moves hl hFlex).imp_right fun hOwn => ?_
      exact ⟨⟨x, l, r⟩, hl, hr, .inl ⟨rfl, rfl⟩, hOwn⟩
  | @right x _ hl hr hFlex =>
      have hRecast : Moves (f.resume [.constraint ⟨deps, .eq l r⟩]).context.entries
          (f.resume [.constraint ⟨deps, .eq r l⟩]).context.entries :=
        (Moves.of_move (.recast (.inl hl))).middle _ _
      rcases flexRigid_moves hr hFlex with ⟨hSupply, hMoves⟩ | hOwn
      · exact .inl ⟨hSupply, hRecast.trans hMoves⟩
      · exact .inr ⟨⟨x, r, l⟩, hr, hl, .inr ⟨rfl, rfl⟩, hOwn⟩
  | same hl hr =>
      have hDrop := hLowered (.of_move (.drop hl hr))
      rw [List.append_nil] at hDrop
      exact .inl ⟨rfl, hDrop⟩
  | meet hNe hl hr hMeet =>
      obtain ⟨hSupply, hMoves⟩ := (meetVars_descends hNe hl hr hMeet).moves
      rw [lower_resume] at hMoves
      exact .inl ⟨hSupply, (hLowered .refl).trans hMoves⟩
  | split hl hr hGoals => exact .inl ⟨rfl, hLowered (.of_move (.split hGoals))⟩

omit [Rules L] [Sized L] [FreeVars L.Special] in
/-- Walking down fails at the end of the context, at another constraint, or at a
variable that would contain itself. -/
theorem walk_eq_error {f : Focus L} {goal : Goal L} {deps : L.Telescope} {eq : FlexRigid L}
    {e : TypeError} (h : f.walk goal deps eq = .error e) :
    f.below = [] ∨ (∃ c below, f.below = .constraint c :: below) ∨
      ∃ kind below, f.below = .intro eq.name kind :: below ∧ eq.name ∈ freeVars eq.rigid ∧
        e = .occurs eq.name (Text.plain eq.rigid) := by
  rw [walk] at h
  obtain ⟨supply, below, above⟩ := f
  cases below with
  | nil => exact .inl rfl
  | cons top below =>
      cases top with
      | intro x kind =>
          simp only [bind, Except.bind, pop, mentions, decide_eq_true_eq] at h
          by_cases hName : x = eq.name
          · subst hName
            rw [if_pos rfl] at h
            by_cases hMentions : eq.name ∈ freeVars eq.rigid
            · rw [if_pos hMentions] at h
              cases h
              exact .inr (.inr ⟨kind, below, rfl, hMentions, rfl⟩)
            · rw [if_neg hMentions] at h
              cases h
          · rw [if_neg hName] at h
            split at h <;> cases h
      | constraint c => exact .inr (.inl ⟨c, below, rfl⟩)
      | _ => cases h

omit [Rules L] [Sized L] [FreeVars L.Special] in
/-- Two variables fail to meet only where there is no context left, or where
there is another constraint. -/
theorem meetVars_eq_error {f : Focus L} {a b : Name} {l r : L.Ty} {e : TypeError}
    (h : f.meetVars a b l r = .error e) :
    f.below = [] ∨ ∃ c below, f.below = .constraint c :: below := by
  rw [meetVars] at h
  obtain ⟨supply, below, above⟩ := f
  cases below with
  | nil => exact .inl rfl
  | cons top below =>
      cases top with
      | intro x kind =>
          simp only [bind, Except.bind, pop] at h
          split at h
          · cases h
          · split at h <;> cases h
      | define x type kind =>
          simp only [bind, Except.bind, pop] at h
          split at h <;> cases h
      | constraint c => exact .inr ⟨c, below, rfl⟩
      | _ => cases h

end Focus

end HindleyMilner
