import HindleyMilner.Proofs.Environment
import HindleyMilner.Proofs.Normalization
import HindleyMilner.Proofs.Polymorphism

/-! Inference is sound for every model whose solver refines: under any solution of
the final context, a term has the type that was found for it. -/
namespace HindleyMilner

open Context TypeAlgebra

variable {L : Language} [Rules L] [Sized L] [FreeVars L.Special]

omit [Rules L] [Sized L] [FreeVars L.Special] in
/-- Pushing entries one after another puts them on top in their order. -/
theorem State.pushAll_eq (s : State L) (es : List (Entry L)) :
    s.pushAll es = ⟨s.supply, ⟨s.context.entries ++ es⟩⟩ := by
  induction es generalizing s with
  | nil => rw [List.append_nil]; rfl
  | cons e es ih =>
      change (s.push e).pushAll es = _
      rw [ih]
      simp [State.push, Context.push]

section

variable (D : Discipline L) (M : Model L) [DecidableEq L.Kind]

/-- What a result of synthesis from a state is worth. -/
structure Sound (e : Term) (s : State L) (r : Synthesis L) : Prop where
  refines : Refines D M s r.state
  settled : Settled r.state.context.entries
  ty : D.Ty (Language.Telescope.Declares (declared r.state.context.entries)) r.type.head
    L.valueKind
  typing : ∀ θ, M.Satisfies θ r.state.context.entries → ∀ Γ : M.algebra.Env,
    Covers Γ (M.uses θ (bindings s.context.entries)) →
    Typing Γ e (M.eval θ L.valueKind r.type.head)

end

namespace Sound

variable {D : Discipline L} {M : Model L} [DecidableEq L.Kind]

/-- A variable has the type of its instance: the new variables may have any
values, and so it is one of the types that the scheme stands for. -/
theorem var {x : Name} {s : State L} {scheme : L.Scheme} (hs : D.Good s)
    (hSettled : Settled s.context.entries) (hLookup : s.context.lookup x = some scheme) :
    Sound D M (.var x) s
      ⟨s.instantiate scheme, (scheme.instantiate s.supply "t" L.var).body⟩ := by
  have hState : s.instantiate scheme = ⟨(scheme.instantiate s.supply "t" L.var).supply,
      ⟨s.context.entries ++
        Language.Telescope.intros (scheme.instantiate s.supply "t" L.var).intros⟩⟩ :=
    State.pushAll_eq _ _
  have hBindings : (bindings s.context.entries).lookup x = some scheme := by
    rw [← lookup_eq_bindings]
    exact hLookup
  have hAdvances := s.supply.advances_drawMany "t" scheme.quantified.length
  rw [hState]
  refine ⟨⟨?_, ?_, hAdvances, fun θ hθ => ?_⟩, ?_, ?_, fun θ hθ Γ hCovers => ?_⟩
  · apply hs.append hAdvances
    · exact D.scoped_intros _ _
    · rw [declared_intros, Scheme.names_instantiate]
      exact Supply.nodup_drawMany _ _
    · intro p hp
      rw [declared_intros] at hp
      have hMem := List.mem_map_of_mem (f := Prod.fst) hp
      rw [Scheme.names_instantiate] at hMem
      exact Supply.pending_drawMany (by simp [Supply.stems]) s.supply hMem
  · exact (Extends.refl _).append (fixed_intros _)
  · exact (M.satisfies_append.mp hθ).1
  · exact settled_append.mpr ⟨hSettled, settled_intros _⟩
  · change D.Ty _ (subst (scheme.renaming s.supply) scheme.body.head) _
    refine D.ty_subst (fun y j _ hy => ?_) (hs.scheme (Name.mem_of_lookup hBindings))
    rw [declared_append, declared_intros]
    rcases hy with hy | ⟨hNot, hy⟩
    · obtain ⟨new, hNew, hRenaming⟩ := Scheme.renaming_of_lookup s.supply hy
      exact .inl ⟨_, hRenaming, D.ty_var (List.mem_append_right _ hNew.mem_intros)⟩
    · exact .inr ⟨Scheme.renaming_of_not_mem hNot, List.mem_append_left _ hy⟩
  · have hUse : (M.uses θ (bindings s.context.entries)).lookup x = some (M.Denotes θ scheme) := by
      rw [Reading.uses, lookup_map_snd, hBindings]
      rfl
    rcases hCovers.lookup x with ⟨-, hNone⟩ | ⟨σ, use, hσ, hSome, hTypes⟩
    · rw [hUse] at hNone
      cases hNone
    · rw [hUse] at hSome
      cases hSome
      apply Typing.var hσ
      apply hTypes
      refine ⟨M.assign θ (scheme.renaming s.supply), fun y hy => ?_, M.eval_subst _ _ _ _⟩
      funext k
      simp only [Reading.assign, Scheme.renaming_of_not_mem hy]

/-- A number has the type that the language gives to it, which
mentions no variables. -/
theorem float {value : Binary64} {s : State L} {type : L.Ty} (hs : D.Good s)
    (hSettled : Settled s.context.entries) (hLiteral : Rules.literal value = .ok type) :
    Sound D M (.float value) s ⟨s, .ofType type⟩ := by
  refine ⟨.refl hs, hSettled, D.ty_literal hLiteral, fun θ _ Γ _ => ?_⟩
  change Typing Γ _ (M.algebra.subst θ (M.denote _ type))
  rw [M.algebra.subst_literal θ _ (M.literal hLiteral)]
  exact .float (M.literal hLiteral)

end Sound

section

variable (s : State L) (x : Name) (function argument : L.Ty)

omit [Rules L] [Sized L] [FreeVars L.Special]

/-- An abstraction puts a new variable and a binding to it on top. -/
theorem State.entries_enterLam :
    (s.enterLam x).context.entries = s.context.entries ++
      [.intro (s.draw "t").1 L.valueKind, .bind x (.mono (L.var (s.draw "t").1 L.valueKind))] :=
  List.append_assoc _ _ _

/-- An application puts a new variable for its type on top, and an equation that
makes the function an arrow to it. -/
theorem State.entries_equate :
    (s.equate function argument).context.entries = s.context.entries ++
      [.intro (s.draw "t").1 L.valueKind,
        .ofGoal (.eq function (L.arrow argument (L.var (s.draw "t").1 L.valueKind)))] :=
  List.append_assoc _ _ _

theorem State.declared_enterLam :
    declared (s.enterLam x).context.entries =
      declared s.context.entries ++ [((s.draw "t").1, L.valueKind)] := by
  rw [entries_enterLam, declared_append]
  rfl

theorem State.declared_equate :
    declared (s.equate function argument).context.entries =
      declared s.context.entries ++ [((s.draw "t").1, L.valueKind)] := by
  rw [entries_equate, declared_append]
  rfl

theorem State.declared_marker :
    declared (s.push .marker).context.entries = declared s.context.entries :=
  (declared_append _ _).trans (List.append_nil _)

theorem State.bindings_enterLam :
    bindings (s.enterLam x).context.entries =
      (x, .mono (L.var (s.draw "t").1 L.valueKind)) :: bindings s.context.entries := by
  rw [entries_enterLam, bindings_append]
  rfl

theorem State.bindings_marker :
    bindings (s.push .marker).context.entries = bindings s.context.entries :=
  bindings_append _ _

end

omit [Rules L] [Sized L] [FreeVars L.Special] in
theorem State.settled_enterLam {s : State L} (h : Settled s.context.entries) (x : Name) :
    Settled (s.enterLam x).context.entries := by
  rw [entries_enterLam, settled_append]
  exact ⟨h, by simp [Settled, Entry.isConstraint]⟩

omit [Rules L] [Sized L] [FreeVars L.Special] in
theorem State.settled_marker {s : State L} (h : Settled s.context.entries) :
    Settled (s.push .marker).context.entries :=
  settled_append.mpr ⟨h, by simp [Settled, Entry.isConstraint]⟩

omit [Rules L] in
/-- The equation of an application carries no variables, so it is anchored. -/
theorem State.anchored_equate {s : State L} (h : Settled s.context.entries)
    (function argument : L.Ty) : Anchored (s.equate function argument).context.entries := by
  rw [entries_equate, ← List.singleton_append, anchored_append, anchored_append]
  refine ⟨anchored_of_settled h, anchored_of_settled ?_, anchored_ofGoal _⟩
  simp [Settled, Entry.isConstraint]

section

variable {M : Model L} {θ : M.Valuation} {s : State L}

omit [FreeVars L.Special]

/-- A new variable and a binding ask nothing of a solution. -/
theorem Model.satisfies_enterLam {x : Name} :
    M.Satisfies θ (s.enterLam x).context.entries ↔ M.Satisfies θ s.context.entries := by
  rw [State.entries_enterLam, M.satisfies_append, M.satisfies_cons, M.satisfies_cons]
  exact and_iff_left ⟨trivial, trivial, M.satisfies_nil⟩

/-- A solution after an application is added is one before, under which the
function is an arrow from the argument to the new variable. -/
theorem Model.satisfies_equate {function argument : L.Ty} :
    M.Satisfies θ (s.equate function argument).context.entries ↔
      M.Satisfies θ s.context.entries ∧ M.eval θ L.valueKind function =
        M.eval θ L.valueKind (L.arrow argument (L.var (s.draw "t").1 L.valueKind)) := by
  rw [State.entries_equate, M.satisfies_append, M.satisfies_cons, M.satisfies_cons]
  apply and_congr_right
  intro _
  constructor
  · exact fun h => h.2.1
  · exact fun h => ⟨trivial, h, M.satisfies_nil⟩

theorem Model.satisfies_marker :
    M.Satisfies θ (s.push .marker).context.entries ↔ M.Satisfies θ s.context.entries := by
  change M.Satisfies θ (s.context.entries ++ [.marker]) ↔ _
  rw [M.satisfies_append, M.satisfies_cons]
  exact and_iff_left ⟨trivial, M.satisfies_nil⟩

end

/-- What becomes of a state to which a variable and an equation were added. -/
theorem Refines.of_equate {D : Discipline L} {M : Model L} {s t : State L}
    {function argument : L.Ty} (h : Refines D M (s.equate function argument) t) :
    Refines D M s t where
  good := h.good
  toExtends := (((Extends.refl _).append rfl).append rfl).trans h.toExtends
  advances := (s.supply.advances_draw "t").trans h.advances
  reflects θ hθ := (Model.satisfies_equate.mp (h.reflects θ hθ)).1

theorem Discipline.Good.push_marker {D : Discipline L} {s : State L} (h : D.Good s) :
    D.Good (s.push .marker) := h.push_fixed rfl trivial

/-- A state stays good when the bound variable of an abstraction is bound to
a new type variable. -/
theorem Discipline.Good.enterLam {D : Discipline L} {s : State L} (h : D.Good s) (x : Name) :
    D.Good (s.enterLam x) := by
  refine h.push_var.push_fixed rfl (D.ty_var (.inr ⟨List.not_mem_nil, ?_⟩))
  rw [Language.Telescope.Declares, declared_append]
  exact List.mem_append_right _ List.mem_cons_self

/-- A binding on top of a state was taken out of what became of the state. -/
structure Removes (D : Discipline L) (M : Model L) (s r rest : State L) : Prop where
  refines : Refines D M s rest
  settled : Settled rest.context.entries
  declared_eq : declared rest.context.entries = declared r.context.entries
  satisfies : ∀ θ, M.Satisfies θ rest.context.entries ↔ M.Satisfies θ r.context.entries
  declaredBelow_eq : ∀ n < (fixed s.context.entries).length,
    declaredBelow n rest.context.entries = declaredBelow n r.context.entries

/-- The entries that a let generalizes over: what a state became has those below
its marker and those above. -/
structure Generalizes (D : Discipline L) (s : State L) (b : Synthesis L)
    (pre post : List (Entry L)) : Prop where
  entries_eq : b.state.context.entries = pre ++ .marker :: post
  good : D.Good ⟨b.state.supply, ⟨pre ++ .marker :: post⟩⟩
  settled : Settled (pre ++ .marker :: post)
  toExtends : Extends s.context.entries pre
  ty : D.Ty (Language.Telescope.Declares (declared pre ++ declared post)) b.type.head L.valueKind

namespace Generalizes

variable {D : Discipline L} {M : Model L} {s : State L} {b : Synthesis L}
  {pre post : List (Entry L)} (h : Generalizes D s b pre post)

include h

theorem good_pre : D.Good ⟨b.state.supply, ⟨pre⟩⟩ := h.good.of_append

theorem settled_pre : Settled pre := (settled_append.mp h.settled).1

theorem settled_bind {x : Name} {scheme : L.Scheme} : Settled (pre ++ [.bind x scheme]) :=
  settled_append.mpr ⟨h.settled_pre, by simp [Settled, Entry.isConstraint]⟩

/-- No variable is declared both below the marker and above it. -/
theorem nodup : ((declared pre ++ declared post).map Prod.fst).Nodup := by
  have hNodup := h.good.wellFormed.nodup
  change ((declared (pre ++ .marker :: post)).map Prod.fst).Nodup at hNodup
  rw [declared_append] at hNodup
  exact hNodup

/-- The scheme of the bound term makes sense below the marker. -/
theorem scheme {made : Generalized L} (hMade : generalize ⟨pre⟩ post b.type = .ok made) :
    D.Scheme (Language.Telescope.Declares (declared pre)) made.scheme := by
  have hScoped := (D.scoped_append.mp h.good.wellFormed.inScope).2.2
  change D.Scoped (declared pre ++ []) post at hScoped
  rw [List.append_nil] at hScoped
  refine D.scheme_of_generalize (fun e he => ?_) hScoped h.nodup h.ty hMade
  exact (settled_append.mp h.settled).2 e (List.mem_cons_of_mem _ he)

/-- So it may be bound on top of what is below the marker. -/
theorem good_bind {made : Generalized L} (hMade : generalize ⟨pre⟩ post b.type = .ok made)
    (x : Name) : D.Good (State.push ⟨b.state.supply, ⟨pre⟩⟩ (.bind x made.scheme)) :=
  h.good_pre.push_fixed rfl (h.scheme hMade)

/-- No variable declared below the marker is quantified in the scheme. -/
theorem not_quantified {made : Generalized L} (hMade : generalize ⟨pre⟩ post b.type = .ok made)
    {p : Name × L.Kind} (hp : p ∈ declared pre) :
    p.1 ∉ made.scheme.quantified.map Prod.fst := by
  intro hMem
  rw [(generalize_eq_ok hMade).1] at hMem
  obtain ⟨q, hq, hEq⟩ := List.mem_map.mp hMem
  have hNodup := h.nodup
  rw [List.map_append, List.nodup_append] at hNodup
  exact hNodup.2.2 p.1 (List.mem_map_of_mem hp) q.1
    (List.mem_map_of_mem (unsolved_subset post hq)) hEq.symm

/-- A solution of the entries below the marker extends to the variables above it. -/
theorem satisfies_above {θ : M.Valuation} (hθ : M.Satisfies θ pre) :
    M.Satisfies (M.extend θ (definitions post)) b.state.context.entries ∧
      ∀ p ∈ declared pre, M.extend θ (definitions post) p.1 = θ p.1 := by
  rw [h.entries_eq]
  exact M.satisfies_above h.good.wellFormed h.settled hθ

end Generalizes

namespace Sound

variable {D : Discipline L} {M : Model L} [DecidableEq L.Kind]

/-- A fixed entry that was on top is found again in a result. -/
theorem exists_split {e : Term} {s : State L} {top : Entry L} (hTop : top.isFixed = true)
    {r : Synthesis L} (h : Sound D M e (s.push top) r) :
    ∃ supply pre post type, r = ⟨⟨supply, ⟨pre ++ top :: post⟩⟩, type⟩ ∧
      Extends s.context.entries pre ∧ fixed post = [] := by
  obtain ⟨⟨supply, ⟨entries⟩⟩, type⟩ := r
  obtain ⟨pre, post, hEntries, hExtends, hFixed⟩ := h.refines.toExtends.exists_split hTop
  cases hEntries
  exact ⟨supply, pre, post, type, rfl, hExtends, hFixed⟩

/-- The binding that a body was looked at under can be removed afterwards. It is
found again below what the body has added, and taking it out changes neither
solutions nor what is declared. -/
theorem removes {e : Term} {s : State L} {x : Name} {scheme : L.Scheme} {r : Synthesis L}
    (h : Sound D M e (s.push (.bind x scheme)) r) :
    ∃ rest, r.state.context.removeBinding x = .ok (scheme, rest) ∧
      Removes D M s r.state ⟨r.state.supply, rest⟩ := by
  obtain ⟨supply, pre, post, type, rfl, hExtends, hFixed⟩ := h.exists_split rfl
  have hSatisfies : ∀ θ, M.Satisfies θ (pre ++ post) ↔
      M.Satisfies θ (pre ++ .bind x scheme :: post) := by
    intro θ
    rw [M.satisfies_append, M.satisfies_append, M.satisfies_cons]
    exact and_congr_right fun _ => (and_iff_right trivial).symm
  have hSettled := settled_append.mp h.settled
  refine ⟨⟨pre ++ post⟩, removeBinding_append hFixed pre, ⟨?_, ?_, ?_, hSatisfies, ?_⟩⟩
  · refine ⟨h.refines.good.remove rfl, hExtends.append hFixed, h.refines.advances,
      fun θ hθ => ?_⟩
    exact (M.satisfies_append.mp (h.refines.reflects θ ((hSatisfies θ).mp hθ))).1
  · apply settled_append.mpr
    exact ⟨hSettled.1, fun e he => hSettled.2 e (List.mem_cons_of_mem _ he)⟩
  · change declared (pre ++ post) = declared (pre ++ .bind x scheme :: post)
    rw [declared_append, declared_append]
    rfl
  · intro n hn
    have hLength : n < (fixed pre).length := hExtends.fixed_eq ▸ hn
    exact (declaredBelow_append_of_lt hLength _).trans (declaredBelow_append_of_lt hLength _).symm

/-- The body has its type under every solution, in which the bound variable has
the value of its new variable. Taking the binding away keeps solutions and the
values of both types. -/
theorem lam {x : Name} {body : Term} {s : State L} {inner : Synthesis L}
    {removed : L.Scheme × Context L} (hBody : Sound D M body (s.enterLam x) inner)
    (hRemove : inner.state.context.removeBinding x = .ok removed) :
    Sound D M (.lam x body) s ⟨⟨inner.state.supply, removed.2⟩, ⟨inner.type.predicates,
      L.arrow (L.var (s.draw "t").1 L.valueKind) inner.type.head⟩⟩ := by
  obtain ⟨rest, hRest, hRemoves⟩ := hBody.removes
  rw [hRest] at hRemove
  cases hRemove
  have hRefines := hRemoves.refines
  have hExtends : Extends (s.context.entries ++ [.intro (s.draw "t").1 L.valueKind])
      rest.entries := hRefines.toExtends
  refine ⟨⟨hRefines.good, ?_, ?_, fun θ hθ => ?_⟩, hRemoves.settled, ?_, fun θ hθ Γ hCovers => ?_⟩
  · exact ((Extends.refl _).append rfl).trans hExtends
  · exact (s.supply.advances_draw "t").trans hRefines.advances
  · exact (M.satisfies_append.mp (hRefines.reflects θ hθ)).1
  · apply D.ty_arrow
    · apply D.ty_var
      apply hExtends.declared_subset
      rw [declared_append]
      exact List.mem_append_right _ List.mem_cons_self
    · have hDeclared : declared rest.entries = declared inner.state.context.entries :=
        hRemoves.declared_eq
      rw [hDeclared]
      exact hBody.ty
  · change Typing Γ _ (M.eval θ _ (L.arrow _ _))
    rw [M.eval_arrow, M.eval_var (M.asVar_var _ _)]
    apply Typing.lam
    apply hBody.typing θ ((hRemoves.satisfies θ).mp hθ)
    rw [State.bindings_enterLam]
    refine .cons ⟨rfl, fun v hv => ?_⟩ hCovers
    apply Scheme.instance_mono.mpr
    rw [(M.denotes_mono θ _ v).mp hv, M.eval_var (M.asVar_var _ _)]

/-- The types of a function and its argument can be equated above both. The
state has moved on after the function, but its type still makes sense there. -/
theorem good_equate {function argument : Term} {s : State L} {f a : Synthesis L}
    (hFunction : Sound D M function s f) (hArgument : Sound D M argument f.state a) :
    D.Good (a.state.equate f.type.head a.type.head) := by
  apply hArgument.refines.good.push_var.push_fixed rfl
  change D.Equation (Language.Telescope.Declares (declared (a.state.context.entries ++
    [.intro (a.state.draw "t").1 L.valueKind]) ++ [])) f.type.head
    (L.arrow a.type.head (L.var (a.state.draw "t").1 L.valueKind))
  rw [List.append_nil, declared_append]
  refine ⟨L.valueKind, D.equated_value, D.ty_mono (fun _ _ _ hx => ?_) hFunction.ty,
    D.ty_arrow (D.ty_mono (fun _ _ _ hx => ?_) hArgument.ty) (D.ty_var ?_)⟩
  · exact List.mem_append_left _ (hArgument.refines.toExtends.declared_subset hx)
  · exact List.mem_append_left _ hx
  · exact List.mem_append_right _ List.mem_cons_self

/-- Every solution of the final state solves the equation, so the function has
an arrow whose right side is the value of the new variable. -/
theorem app {function argument : Term} {s solved : State L} {f a : Synthesis L}
    (hFunction : Sound D M function s f) (hArgument : Sound D M argument f.state a)
    (hRefines : Refines D M (a.state.equate f.type.head a.type.head) solved)
    (hSettled : Settled solved.context.entries) :
    Sound D M (.app function argument) s
      ⟨solved, ⟨f.type.predicates ++ a.type.predicates,
        L.var (a.state.draw "t").1 L.valueKind⟩⟩ := by
  have hSolved := hRefines.of_equate
  refine ⟨(hFunction.refines.trans hArgument.refines).trans hSolved, hSettled, ?_,
    fun θ hθ Γ hCovers => ?_⟩
  · apply D.ty_var
    apply hRefines.toExtends.declared_subset
    rw [State.declared_equate]
    exact List.mem_append_right _ List.mem_cons_self
  · obtain ⟨hStateA, hEquation⟩ := Model.satisfies_equate.mp (hRefines.reflects θ hθ)
    have hTypeF := hFunction.typing θ (hArgument.refines.reflects θ hStateA) Γ hCovers
    rw [hEquation, M.eval_arrow] at hTypeF
    refine .app hTypeF (hArgument.typing θ hStateA Γ ?_)
    rw [hFunction.refines.toExtends.bindings_eq]
    exact hCovers

/-- The bound term of a let can be generalized above the marker it
was looked at under. -/
theorem generalizes {bound : Term} {s : State L} {b : Synthesis L}
    (h : Sound D M bound (s.push .marker) b) : ∃ pre post,
      b.state.context.skim = .ok (⟨pre⟩, post) ∧ Generalizes D s b pre post := by
  obtain ⟨supply, pre, post, type, rfl, hExtends, hFixed⟩ := h.exists_split rfl
  obtain ⟨hPre, hMarker⟩ := settled_append.mp h.settled
  have hPost : Settled post := fun e he => hMarker e (List.mem_cons_of_mem _ he)
  refine ⟨pre, post, skim_append hFixed hPost, rfl, h.refines.good, h.settled, hExtends, ?_⟩
  have hTy := h.ty
  change D.Ty (Language.Telescope.Declares (declared (pre ++ .marker :: post))) _ _ at hTy
  rw [declared_append] at hTy
  exact hTy

/-- Where a solution of the entries below the marker is given, the
bound term has a type that can be generalized to all that the scheme
of the let stands for. -/
theorem exists_generalized {bound : Term} {s : State L} {b : Synthesis L}
    {pre post : List (Entry L)} {made : Generalized L} (hCompatible : M.Compatible D)
    (hs : D.Good s) (hBound : Sound D M bound (s.push .marker) b)
    (hMarked : Generalizes D s b pre post) (hGeneralize : generalize ⟨pre⟩ post b.type = .ok made)
    {θ : M.Valuation} (hθ : M.Satisfies θ pre) {Γ : M.algebra.Env}
    (hCovers : Covers Γ (M.uses θ (bindings s.context.entries))) :
    ∃ a, Typing Γ bound a ∧ ∀ v, M.Denotes θ made.scheme v →
      (TypeAlgebra.generalize Γ a).Instance v := by
  -- The quantified variables get new names, so that the let may generalize them.
  obtain ⟨θ₁, hθ₁, hInstance⟩ := exists_generalize_instance Γ
    (fun y _ => y ∈ made.scheme.quantified.map Prod.fst) θ
    (M.denote L.valueKind made.scheme.body.head)
  have hSame : ∀ p ∈ declared pre, θ p.1 = θ₁ p.1 := by
    intro p hp
    funext k
    exact (hθ₁ p.1 k (hMarked.not_quantified hGeneralize hp)).symm
  obtain ⟨hHolds, hAgree⟩ := hMarked.satisfies_above
    (M.satisfies_congr D hMarked.settled_pre hMarked.good_pre.wellFormed.inScope hSame hθ)
  refine ⟨M.eval θ₁ L.valueKind made.scheme.body.head, ?_, ?_⟩
  · rw [(generalize_eq_ok hGeneralize).2, M.eval_unwind]
    apply hBound.typing _ hHolds
    rw [State.bindings_marker, hs.uses_congr hCompatible fun p hp => ?_]
    · exact hCovers
    · have hp := hMarked.toExtends.declared_subset hp
      rw [hAgree p hp, hSame p hp]
  · rintro v ⟨η, hη, rfl⟩
    apply hInstance η
    intro y k hy
    rw [hη y hy]

/-- A solution at the end solves what is below the marker, where it extends to
the variables above it in every way that the scheme quantifies over. So the body
may use the bound variable at each type that the scheme stands for. -/
theorem letIn {x : Name} {bound body : Term} {s : State L} {b inner : Synthesis L}
    {pre post : List (Entry L)} {made : Generalized L} {removed : L.Scheme × Context L}
    (hCompatible : M.Compatible D) (hs : D.Good s) (hSettled : Settled s.context.entries)
    (hBound : Sound D M bound (s.push .marker) b) (hMarked : Generalizes D s b pre post)
    (hGeneralize : generalize ⟨pre⟩ post b.type = .ok made)
    (hInner : Sound D M body (State.push ⟨b.state.supply, ⟨pre⟩⟩ (.bind x made.scheme)) inner)
    (hRemove : inner.state.context.removeBinding x = .ok removed) :
    Sound D M (.letIn x bound body) s ⟨⟨inner.state.supply, removed.2⟩,
      ⟨made.deferred ++ inner.type.predicates, inner.type.head⟩⟩ := by
  obtain ⟨rest, hRest, hRemoves⟩ := hInner.removes
  rw [hRest] at hRemove
  cases hRemove
  have hExtends := hMarked.toExtends
  have hRefines := hRemoves.refines
  refine ⟨⟨hRefines.good, hExtends.trans hRefines.toExtends, ?_, fun θ hθ => ?_⟩,
    hRemoves.settled, ?_, fun θ hθ Γ hCovers => ?_⟩
  · exact hBound.refines.advances.trans hRefines.advances
  · obtain ⟨hHolds, hAgree⟩ := hMarked.satisfies_above (hRefines.reflects θ hθ)
    have hBelow := Model.satisfies_marker.mp (hBound.refines.reflects _ hHolds)
    apply M.satisfies_congr D hSettled hs.wellFormed.inScope _ hBelow
    exact fun p hp => hAgree p (hExtends.declared_subset hp)
  · have hDeclared : declared rest.entries = declared inner.state.context.entries :=
      hRemoves.declared_eq
    change D.Ty (Language.Telescope.Declares (declared rest.entries)) _ _
    rw [hDeclared]
    exact hInner.ty
  · obtain ⟨a, hTypeBound, hInstances⟩ := hBound.exists_generalized hCompatible hs hMarked
      hGeneralize (hRefines.reflects θ hθ) hCovers
    apply Typing.letIn hTypeBound
    apply hInner.typing θ ((hRemoves.satisfies θ).mp hθ)
    change Covers _ (M.uses θ (bindings (pre ++ [.bind x made.scheme])))
    rw [bindings_append, hExtends.bindings_eq]
    exact .cons ⟨rfl, hInstances⟩ hCovers

end Sound

/-- Synthesis is sound if solving constraints refines. By induction on the
synthesis, with one lemma for each form of term; each part starts in the state
that the part before it has left. -/
theorem Synthesizes.sound {D : Discipline L} {M : Model L} [DecidableEq L.Kind]
    {solve : State L → Except TypeError (State L)} (hCompatible : M.Compatible D)
    (hSolve : ∀ {s t : State L}, D.Good s → solve s = .ok t →
      Refines D M s t ∧ Settled t.context.entries)
    {e : Term} {s : State L} {r : Synthesis L} (h : Synthesizes solve e s r) (hs : D.Good s)
    (hSettled : Settled s.context.entries) : Sound D M e s r := by
  induction h with
  | var hLookup => exact .var hs hSettled hLookup
  | @lam x body s inner removed _ hRemove ih =>
      exact .lam (ih (hs.enterLam x) (State.settled_enterLam hSettled x)) hRemove
  | app _ _ hRun ihFunction ihArgument =>
      have hFunction := ihFunction hs hSettled
      have hArgument := ihArgument hFunction.refines.good hFunction.settled
      obtain ⟨hRefines, hSolved⟩ := hSolve (hFunction.good_equate hArgument) hRun
      exact .app hFunction hArgument hRefines hSolved
  | @letIn x bound body s b inner skimmed made removed _ hSkim hGeneralize _ hRemove ihBound
      ihBody =>
      have hBound := ihBound hs.push_marker (State.settled_marker hSettled)
      obtain ⟨pre, post, hPost, hMarked⟩ := hBound.generalizes
      rw [hPost] at hSkim
      cases hSkim
      exact .letIn hCompatible hs hSettled hBound hMarked hGeneralize
        (ihBody (hMarked.good_bind hGeneralize x) hMarked.settled_bind) hRemove
  | float hLiteral => exact .float hs hSettled hLiteral

namespace Sound

variable {D : Discipline L} {M : Model L} [DecidableEq L.Kind] {e : Term} {s : State L}
  {r : Synthesis L} (h : Sound D M e s r)

include h

/-- The context of a result is still well-formed when it is normalized. -/
theorem wellFormed_normalize : D.WellFormed r.state.context.normalize.entries :=
  D.wellFormed_normalize h.refines.good.wellFormed

theorem settled_normalize : Settled r.state.context.normalize.entries :=
  settled_normalizeEntries h.settled

/-- Where the definitions of the context are substituted in the type, its
variables are unsolved. -/
theorem ty_apply : D.Ty
    (Language.Telescope.Declares (unsolved r.state.context.normalize.entries))
    (r.state.context.normalize.apply r.type.head) L.valueKind := by
  have hDeclared : declared r.state.context.normalize.entries =
      declared r.state.context.entries := declared_normalizeEntries _ _
  have hTy := h.ty
  rw [← hDeclared] at hTy
  exact D.ty_unwind (K := []) h.settled_normalize h.wellFormed_normalize.inScope
    h.wellFormed_normalize.nodup hTy

end Sound

/-- Inference from bindings of closed schemes gives a type of the term, and a
type of the value kind. -/
theorem typing_of_infer [Terminating L] {D : Discipline L} {M : Model L} [DecidableEq L.Kind]
    (hCompatible : M.Compatible D) (hSteps : StepsRefine D M) {s : State L} (hs : D.Closed s)
    {e : Term} {q : L.Qualified} (h : infer s e = .ok q) :
    (∃ (K : L.Telescope) (t : L.Ty), (K.map Prod.fst).Nodup ∧ D.Ty K.Declares t L.valueKind ∧
      Rules.finish t = .ok q.head) ∧
    Typing (M.environment s) e (M.denote L.valueKind q.head) := by
  obtain ⟨r, hr, hResolve⟩ := infer_eq_ok.mp h
  obtain ⟨head, hFinish, hRest⟩ := bind_eq_ok.mp hResolve
  obtain ⟨predicates, -, hq⟩ := bind_eq_ok.mp hRest
  cases hq
  have hSound := hr.sound hCompatible (fun hGood hRun => hSteps.unify hGood hRun) hs.good
    hs.settled
  have hWellFormed := hSound.wellFormed_normalize
  constructor
  · refine ⟨unsolved r.state.context.normalize.entries, _, ?_, hSound.ty_apply, hFinish⟩
    exact ((unsolved_sublist _).map Prod.fst).nodup hWellFormed.nodup
  · -- The variables of the normalized context get the values that it defines.
    let θ := M.extend M.algebra.var (definitions r.state.context.normalize.entries)
    have hNormal : M.Satisfies θ r.state.context.normalize.entries :=
      M.satisfies_extend D (K := []) _ hSound.settled_normalize hWellFormed.inScope
        hWellFormed.nodup
    have hHolds := M.satisfies_normalize.mp hNormal
    have hEval : M.denote L.valueKind head = M.eval θ L.valueKind r.type.head := by
      rw [M.finish hFinish, ← M.eval_id]
      exact M.eval_unwind _ _ _ _
    change Typing _ e (M.denote L.valueKind head)
    rw [hEval]
    apply hSound.typing θ hHolds
    rw [hs.good.uses_congr hCompatible fun p hp => ?_]
    · exact Model.covers_environment hCompatible hs
    · rw [hs.declared_eq] at hp
      cases hp

end HindleyMilner
