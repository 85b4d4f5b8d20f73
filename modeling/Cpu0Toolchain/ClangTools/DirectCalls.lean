import Cpu0Toolchain.ClangTools.EnclosingFunction

/-!
# Rewriting the direct calls

`GetFunctionDecl` takes the first child of a call that has the shape of a direct callee, and a
function that is passed as an argument has that shape too. What is replaced is the text of the
first child in any case. Whether anything is replaced goes by `CurrFunc`, the function that was
entered last, and not by the one that the call stands in.

## Main results

- `rewritesDirectCalls_iff`: the trees in which exactly the direct calls in functions with the
  attribute are rewritten.
- `rewritesDirectCalls_simple_iff`: of trees without functions, visited with `CurrFunc` the
  function around them, it is those whose calls are direct or pass on another function first.
-/

namespace Cpu0Toolchain.ClangTools

/-- The call's own direct callee is `A::abs`. -/
def DirectlyCallsAbs (children : List Node) : Prop :=
  NamesAbs (children.head?.bind directFunction)

instance (children : List Node) : Decidable (DirectlyCallsAbs children) :=
  inferInstanceAs (Decidable (NamesAbs _))

/-- What is meant to happen at a call in the body of a function. -/
def meant (call : List Node × Option FunctionDecl) : List Node × Bool :=
  (call.1, decide (NoReturn call.2 ∧ DirectlyCallsAbs call.1))

/-- The visitor comes through the whole of a tree in the body of `f`, and of its calls it rewrites
those that stand in a function with the attribute and call `A::abs` directly, and no others. -/
def RewritesDirectCalls (entersLambda : Bool) (v : Visitor) (f : Option FunctionDecl)
    (node : Node) : Prop :=
  ∃ v', v.traverse entersLambda node = .ok v' ∧
    v'.reached = v.reached ++ (calls (callbacks entersLambda f node)).map meant

/-- A call of `A::abs` that is to be rewritten has `last` with the attribute before it. Any other
call behind such a `last` has a function directly under it, and the first one is not `A::abs`. -/
def RightlyTaken (last innermost : Option FunctionDecl) (children : List Node) : Prop :=
  (NoReturn innermost ∧ DirectlyCallsAbs children → NoReturn last) ∧
    (NoReturn last → NoReturn innermost ∧ DirectlyCallsAbs children ∨
      ∃ fd, FirstFunction children fd ∧ fd.qualifiedName ≠ "A::abs")

/-- So it is at every call, with the function that is entered last before it. -/
def AllRightlyTaken (first : Option FunctionDecl) (cbs : List Callback) : Prop :=
  ∀ before children innermost after, cbs = before ++ .call children innermost :: after →
    RightlyTaken (lastEntered first before) innermost children

/-! ## One call -/

section Call

variable {children : List Node}

theorem firstFunction_unique {fd fd' : FunctionDecl} (h : FirstFunction children fd)
    (h' : FirstFunction children fd') : fd = fd' :=
  Option.some.inj
    ((getFunctionDecl_eq_some_iff.mpr h).symm.trans (getFunctionDecl_eq_some_iff.mpr h'))

/-- A direct callee is the first child, so a function there is the one that is found. -/
theorem firstFunction_of_directlyCallsAbs (h : DirectlyCallsAbs children) :
    ∃ fd, FirstFunction children fd ∧ fd.qualifiedName = "A::abs" := by
  cases children with
  | nil => cases h
  | cons callee args =>
    cases hcallee : directFunction callee with
    | none =>
      rw [DirectlyCallsAbs, List.head?_cons, Option.bind_some, hcallee] at h
      cases h
    | some fd =>
      rw [DirectlyCallsAbs, List.head?_cons, Option.bind_some, hcallee] at h
      exact ⟨fd, ⟨[], callee, args, rfl, hcallee, fun _ hc => absurd hc List.not_mem_nil⟩,
        namesAbs_some_iff.mp h⟩

/-- For these calls, and for no others, a function is found where one is looked for, and the text
is replaced where it is meant to be. -/
theorem rightlyTaken_iff {last innermost : Option FunctionDecl} :
    RightlyTaken last innermost children ↔ ¬Faults last children ∧
      decide (NoReturn last ∧ TakenForAbs children) =
        decide (NoReturn innermost ∧ DirectlyCallsAbs children) := by
  rw [decide_eq_decide]
  constructor
  · rintro ⟨hmeant, hlast⟩
    refine ⟨?_, ?_, ?_⟩
    · rintro ⟨hret, hnone⟩
      rcases hlast hret with ⟨-, hdirect⟩ | ⟨fd, hfirst, -⟩
      · exact not_takenForAbs hnone (firstFunction_of_directlyCallsAbs hdirect)
      · rw [← getFunctionDecl_eq_none_iff, getFunctionDecl_eq_some_iff.mpr hfirst] at hnone
        cases hnone
    · rintro ⟨hret, fd, hfirst, habs⟩
      refine (hlast hret).resolve_right ?_
      rintro ⟨fd', hfirst', hne⟩
      exact hne (firstFunction_unique hfirst hfirst' ▸ habs)
    · intro h
      exact ⟨hmeant h, firstFunction_of_directlyCallsAbs h.2⟩
  · rintro ⟨hfault, hiff⟩
    refine ⟨fun h => (hiff.mpr h).1, fun hret => ?_⟩
    by_cases htaken : TakenForAbs children
    · exact .inl (hiff.mp ⟨hret, htaken⟩)
    · -- some function is found, and it is not `A::abs`
      cases hfd : Visitor.getFunctionDecl children with
      | none => exact absurd ⟨hret, getFunctionDecl_eq_none_iff.mp hfd⟩ hfault
      | some fd =>
        have hfirst := getFunctionDecl_eq_some_iff.mp hfd
        exact .inr ⟨fd, hfirst, fun habs => htaken ⟨fd, hfirst, habs⟩⟩

end Call

/-! ## All calls of a tree -/

theorem allRightlyTaken_nil (first : Option FunctionDecl) : AllRightlyTaken first [] :=
  StopRun.forall_places_nil (f := Callback.call)

theorem allRightlyTaken_enter {first : Option FunctionDecl} {fd : FunctionDecl}
    {cbs : List Callback} :
    AllRightlyTaken first (.enter fd :: cbs) ↔ AllRightlyTaken (some fd) cbs :=
  (StopRun.forall_places_cons (f := Callback.call)).trans (and_iff_right nofun)

theorem allRightlyTaken_call {first innermost : Option FunctionDecl} {children : List Node}
    {cbs : List Callback} :
    AllRightlyTaken first (.call children innermost :: cbs) ↔
      RightlyTaken first innermost children ∧ AllRightlyTaken first cbs := by
  refine (StopRun.forall_places_cons (f := Callback.call)).trans (and_congr_left' ?_)
  constructor
  · exact fun h => h children innermost rfl
  · rintro h _ _ ⟨⟩
    exact h

theorem reached_behind {v v' : Visitor} {children : List Node} {flag : Bool} {cbs : List Callback}
    (hrun : StopRun.run Visitor.callback (v.reach children flag) cbs = .ok v') :
    v'.reached = v.reached ++ (children, flag) :: visits v.currFunc cbs := by
  have hvisits := final_reached (v.reach children flag) cbs
  rw [hrun] at hvisits
  change v'.reached = (v.reached ++ [(children, flag)]) ++ visits v.currFunc cbs at hvisits
  rw [hvisits, List.append_assoc]
  rfl

theorem rewrites_iff (v : Visitor) (cbs : List Callback) :
    (∃ v', StopRun.run Visitor.callback v cbs = .ok v' ∧
      v'.reached = v.reached ++ (calls cbs).map meant) ↔ AllRightlyTaken v.currFunc cbs := by
  induction cbs generalizing v with
  | nil => exact ⟨fun _ => allRightlyTaken_nil _, fun _ => ⟨v, rfl, by simp [calls]⟩⟩
  | cons cb rest ih =>
    cases cb with
    | enter fd =>
      rw [StopRun.run_cons_ok rfl, allRightlyTaken_enter]
      exact ih (v.visitFunctionDecl fd)
    | call children innermost =>
      have hstep : v.callback (.call children innermost) = _ := visitCall_eq v children
      rw [allRightlyTaken_call, rightlyTaken_iff, calls, List.map_cons]
      by_cases hfault : Faults v.currFunc children
      · -- the run ends here with a null pointer
        rw [if_pos hfault] at hstep
        rw [StopRun.run_cons_error hstep]
        constructor
        · rintro ⟨v', hrun, -⟩
          cases hrun
        · exact fun h => absurd hfault h.1.1
      · rw [if_neg hfault] at hstep
        rw [StopRun.run_cons_ok hstep]
        generalize decide (NoReturn v.currFunc ∧ TakenForAbs children) = flag
        have hrest := ih (v.reach children flag)
        have hreach : (v.reach children flag).reached = v.reached ++ [(children, flag)] := rfl
        rw [hreach, List.append_assoc, List.singleton_append] at hrest
        constructor
        · rintro ⟨v', hrun, hreached⟩
          have hhead := List.append_cancel_left ((reached_behind hrun).symm.trans hreached)
          have hmeant := (List.cons.inj hhead).1
          refine ⟨⟨hfault, congrArg Prod.snd hmeant⟩, hrest.mp ⟨v', hrun, ?_⟩⟩
          rw [hreached, ← hmeant]
        · rintro ⟨⟨-, hflag⟩, htail⟩
          obtain ⟨v', hrun, hreached⟩ := hrest.mpr htail
          refine ⟨v', hrun, hreached.trans ?_⟩
          rw [hflag]
          rfl

/-- Exactly the direct calls of `A::abs` in functions with the attribute are rewritten, and no
null pointer is used, if and only if each call is taken for what it is. -/
theorem rewritesDirectCalls_iff (entersLambda : Bool) (v : Visitor) (f : Option FunctionDecl)
    (node : Node) :
    RewritesDirectCalls entersLambda v f node ↔
      AllRightlyTaken v.currFunc (callbacks entersLambda f node) := by
  rw [RewritesDirectCalls, Visitor.traverse_eq_run entersLambda f]
  exact rewrites_iff v _

/-! ## Trees without functions in them -/

section Simple

variable (entersLambda : Bool) (f : Option FunctionDecl)

mutual

/-- Where no function stands in a node, it has nothing but calls, all in the one around it. -/
theorem callbacks_simple : ∀ node : Node, node.Simple →
    ∀ cb ∈ callbacks entersLambda f node, ∃ children, cb = .call children f
  | .functionDecl _ _ _, h => by
    rw [Node.Simple] at h
    exact h.elim
  | .lambdaExpr _ _ _, h => by
    rw [Node.Simple] at h
    exact h.elim
  | .callExpr children, h => by
    rw [Node.Simple] at h
    rw [callbacks]
    exact List.forall_mem_cons.mpr ⟨⟨children, rfl⟩, callbacksAll_simple children h⟩
  | .implicitCastExpr sub, h => by
    rw [Node.Simple] at h
    rw [callbacks]
    exact callbacks_simple sub h
  | .parenExpr sub, h => by
    rw [Node.Simple] at h
    rw [callbacks]
    exact callbacks_simple sub h
  | .declRefExpr _, _ => by simp [callbacks]
  | .other children, h => by
    rw [Node.Simple] at h
    rw [callbacks]
    exact callbacksAll_simple children h

theorem callbacksAll_simple : ∀ nodes : List Node, Node.SimpleAll nodes →
    ∀ cb ∈ callbacksAll entersLambda f nodes, ∃ children, cb = .call children f
  | [], _ => by simp [callbacksAll]
  | node :: rest, h => by
    rw [Node.SimpleAll] at h
    rw [callbacksAll]
    exact List.forall_mem_append.mpr
      ⟨callbacks_simple node h.1, callbacksAll_simple rest h.2⟩

end

end Simple

theorem allRightlyTaken_of_calls {f : Option FunctionDecl} {cbs : List Callback}
    (h : ∀ cb ∈ cbs, ∃ children, cb = .call children f) :
    AllRightlyTaken f cbs ↔ ∀ call ∈ calls cbs, RightlyTaken f f call.1 := by
  induction cbs with
  | nil => exact ⟨fun _ call hc => absurd hc List.not_mem_nil, fun _ => allRightlyTaken_nil f⟩
  | cons cb rest ih =>
    obtain ⟨⟨children, rfl⟩, hrest⟩ := List.forall_mem_cons.mp h
    rw [allRightlyTaken_call, calls, List.forall_mem_cons, ih hrest]

/-- In the function around it, a call is taken for what it is if it calls `A::abs` directly, or
passes no `A::abs` on before other functions. -/
theorem rightlyTaken_self_iff {f : Option FunctionDecl} {children : List Node} :
    RightlyTaken f f children ↔ (NoReturn f → DirectlyCallsAbs children ∨
      ∃ fd, FirstFunction children fd ∧ fd.qualifiedName ≠ "A::abs") := by
  constructor
  · exact fun h hret => (h.2 hret).imp_left And.right
  · exact fun h => ⟨And.left, fun hret => (h hret).imp_left (And.intro hret)⟩

/-- In a tree without functions, visited with `CurrFunc` the function around it, the calls have to
be direct calls of `A::abs` or to have another function first. -/
theorem rewritesDirectCalls_simple_iff {entersLambda : Bool} {v : Visitor} {node : Node}
    (h : node.Simple) :
    RewritesDirectCalls entersLambda v v.currFunc node ↔
      ∀ call ∈ calls (callbacks entersLambda v.currFunc node), NoReturn v.currFunc →
        DirectlyCallsAbs call.1 ∨
          ∃ fd, FirstFunction call.1 fd ∧ fd.qualifiedName ≠ "A::abs" := by
  rw [rewritesDirectCalls_iff,
    allRightlyTaken_of_calls (callbacks_simple entersLambda v.currFunc node h)]
  exact forall₂_congr fun _ _ => rightlyTaken_self_iff

/-! ## Calls through a pointer -/

/-- The visitor in a function declared `_Noreturn`. -/
def inNoreturn : Visitor := ⟨some ⟨"test1", true⟩, []⟩

/-- `fp(x)` -/
def throughPointer : Node :=
  .callExpr [.implicitCastExpr (.declRefExpr none), .implicitCastExpr (.declRefExpr none)]

/-- `fp(A::abs)` -/
def absPassed : Node :=
  .callExpr [.implicitCastExpr (.declRefExpr none),
    .implicitCastExpr (.declRefExpr (some ⟨"A::abs", false⟩))]

/-- A call through a pointer ends with a null pointer, and is rewritten when it passes `A::abs`
on. -/
theorem not_rewritesDirectCalls_pointer :
    ¬RewritesDirectCalls true inNoreturn inNoreturn.currFunc throughPointer ∧
      ¬RewritesDirectCalls true inNoreturn inNoreturn.currFunc absPassed := by
  constructor
  · rintro ⟨v', hrun, -⟩
    rw [throughPointer, Visitor.traverse] at hrun
    cases hrun
  · rintro ⟨v', hrun, hreached⟩
    rw [absPassed, Visitor.traverse] at hrun
    cases hrun
    have hflags := congrArg (List.map Prod.snd) hreached
    rw [absPassed, callbacks] at hflags
    cases hflags

end Cpu0Toolchain.ClangTools
