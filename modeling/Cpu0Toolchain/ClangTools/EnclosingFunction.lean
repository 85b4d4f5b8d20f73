import Cpu0Toolchain.ClangTools.Rewriter

/-!
# Rewriting by the enclosing function

`CurrFunc` is set when a function is entered and never set back, so that the plugin goes by
the function declaration that stands last before a call. It goes by the enclosing function
where these two agree.

## Main results

- `appliesByFunction_iff`: the calls of `A::abs` are rewritten by their enclosing functions
  exactly if the declarations before them agree with these.
- `appliesByFunction_of_flat`: they are in units of functions that contain no functions.
-/

namespace Cpu0Toolchain.ClangTools

/-! ## Calls and their functions -/

/-- A function, if there is one, with the attribute. -/
def NoReturn (f : Option FunctionDecl) : Prop := f.any (·.noReturn) = true

instance (f : Option FunctionDecl) : Decidable (NoReturn f) :=
  inferInstanceAs (Decidable (_ = true))

def NamesAbs (f : Option FunctionDecl) : Prop := f.map (·.qualifiedName) = some "A::abs"

instance (f : Option FunctionDecl) : Decidable (NamesAbs f) := inferInstanceAs (Decidable (_ = _))

/-- The function that an expression names, within casts and parentheses. -/
def namedFunction : Node → Option FunctionDecl
  | .declRefExpr decl => decl
  | .implicitCastExpr sub => namedFunction sub
  | .parenExpr sub => namedFunction sub
  | _ => none

/-- The callee of the call is `A::abs`. -/
def CallsAbs (children : List Node) : Prop := NamesAbs (children.head?.bind namedFunction)

/-- The function of a direct callee, and of a function that is passed as an argument. -/
def directFunction : Node → Option FunctionDecl
  | .implicitCastExpr (.declRefExpr decl) => decl
  | _ => none

/-- The first function directly under a call, be it the callee or an argument. -/
def FirstFunction (children : List Node) (fd : FunctionDecl) : Prop :=
  ∃ before child after, children = before ++ child :: after ∧ directFunction child = some fd ∧
    ∀ c ∈ before, directFunction c = none

/-- The first function directly under the call is `A::abs`. -/
def TakenForAbs (children : List Node) : Prop :=
  ∃ fd, FirstFunction children fd ∧ fd.qualifiedName = "A::abs"

/-- The calls of a unit, with the innermost functions whose bodies contain them. -/
def calls : List Callback → List (List Node × Option FunctionDecl)
  | [] => []
  | .enter _ :: rest => calls rest
  | .call children innermost :: rest => (children, innermost) :: calls rest

/-- A call of `A::abs` is rewritten if and only if its innermost function has the attribute. -/
def RewrittenByFunction (call : List Node × Option FunctionDecl) (visit : List Node × Bool) : Prop :=
  visit.1 = call.1 ∧ (CallsAbs call.1 → (visit.2 = true ↔ NoReturn call.2))

/-- The plugin does so at every call it reaches. -/
def AppliesByFunction (entersLambda : Bool) (unit : List (List Node)) : Prop :=
  let reached := (StopRun.final (handleTopLevelDecls entersLambda unit)).reached
  List.Forall₂ RewrittenByFunction
    ((calls (unitCallbacks entersLambda unit)).take reached.length) reached

/-- The function that is entered last, or the one before all of them. -/
def lastEntered : Option FunctionDecl → List Callback → Option FunctionDecl
  | first, [] => first
  | _, .enter fd :: rest => lastEntered (some fd) rest
  | first, .call _ _ :: rest => lastEntered first rest

/-- Behind a declaration with the attribute, the call has no function directly under it. -/
def Faults (last : Option FunctionDecl) (children : List Node) : Prop :=
  NoReturn last ∧ ∀ child ∈ children, directFunction child = none

instance (last : Option FunctionDecl) (children : List Node) : Decidable (Faults last children) :=
  inferInstanceAs (Decidable (_ ∧ _))

/-- None of the calls is such a call. -/
def Survived (first : Option FunctionDecl) (before : List Callback) : Prop :=
  ∀ b children innermost b', before = b ++ .call children innermost :: b' →
    ¬Faults (lastEntered first b) children

/-- What was entered last before a call of `A::abs` agrees with its innermost function. -/
def LastAgrees (first : Option FunctionDecl) (cbs : List Callback) : Prop :=
  ∀ before children innermost after, cbs = before ++ .call children innermost :: after →
    Survived first before → CallsAbs children →
      (NoReturn (lastEntered first before) ∧ TakenForAbs children ↔ NoReturn innermost)

/-! ## What the visitor reaches -/

section Callee

variable {children : List Node} {fd : FunctionDecl}

/-- `GetFunctionDecl` finds the first function directly under the call. -/
theorem getFunctionDecl_eq_some_iff :
    Visitor.getFunctionDecl children = some fd ↔ FirstFunction children fd :=
  List.findSome?_eq_some_iff

theorem getFunctionDecl_eq_none_iff :
    Visitor.getFunctionDecl children = none ↔ ∀ child ∈ children, directFunction child = none :=
  List.findSome?_eq_none_iff

theorem namesAbs_some_iff : NamesAbs (some fd) ↔ fd.qualifiedName = "A::abs" := Option.some_inj

theorem takenForAbs_iff : TakenForAbs children ↔ NamesAbs (Visitor.getFunctionDecl children) := by
  constructor
  · rintro ⟨fd, hfirst, hname⟩
    rw [getFunctionDecl_eq_some_iff.mpr hfirst]
    exact namesAbs_some_iff.mpr hname
  · intro h
    cases hfd : Visitor.getFunctionDecl children with
    | none =>
      rw [hfd] at h
      cases h
    | some fd =>
      rw [hfd] at h
      exact ⟨fd, getFunctionDecl_eq_some_iff.mp hfd, namesAbs_some_iff.mp h⟩

instance (children : List Node) : Decidable (TakenForAbs children) :=
  decidable_of_iff _ takenForAbs_iff.symm

theorem not_takenForAbs (h : ∀ child ∈ children, directFunction child = none) :
    ¬TakenForAbs children := by
  rintro ⟨fd, ⟨before, child, after, rfl, hchild, -⟩, -⟩
  have hnone := h child (List.mem_append_right _ List.mem_cons_self)
  rw [hchild] at hnone
  cases hnone

end Callee

/-- The calls that are reached behind a function, and whether they are rewritten. -/
def visits : Option FunctionDecl → List Callback → List (List Node × Bool)
  | _, [] => []
  | _, .enter fd :: rest => visits (some fd) rest
  | last, .call children _ :: rest =>
    (children, decide (NoReturn last ∧ TakenForAbs children)) ::
      if Faults last children then [] else visits last rest

theorem visitCall_eq (v : Visitor) (children : List Node) :
    v.visitCall children =
      if Faults v.currFunc children then .error (.nullDereference, v.reach children false)
      else .ok (v.reach children (decide (NoReturn v.currFunc ∧ TakenForAbs children))) := by
  rw [Visitor.visitCall]
  cases hcurr : v.currFunc with
  | none =>
    rw [if_neg fun h => absurd h.1 (by decide), decide_eq_false fun h => absurd h.1 (by decide)]
  | some fd =>
    have hattr : NoReturn (some fd) ↔ fd.noReturn = true := Iff.rfl
    dsimp only
    by_cases hret : fd.noReturn = true
    · rw [if_neg (by rw [hret]; decide)]
      cases hfd : Visitor.getFunctionDecl children with
      | none =>
        rw [if_pos ⟨hattr.mpr hret, getFunctionDecl_eq_none_iff.mp hfd⟩]
      | some callee =>
        have hnot : ¬Faults (some fd) children := by
          rintro ⟨-, hnone⟩
          rw [getFunctionDecl_eq_none_iff.mpr hnone] at hfd
          cases hfd
        have htaken : TakenForAbs children ↔ callee.qualifiedName = "A::abs" := by
          rw [takenForAbs_iff, hfd]
          exact namesAbs_some_iff
        rw [if_neg hnot]
        by_cases habs : callee.qualifiedName = "A::abs"
        · rw [decide_eq_true ⟨hattr.mpr hret, htaken.mpr habs⟩]
          show (if callee.qualifiedName = "A::abs" then _ else _) = _
          rw [if_pos habs, Visitor.createBuiltinFunc, if_pos habs]
        · rw [decide_eq_false fun h => habs (htaken.mp h.2)]
          show (if callee.qualifiedName = "A::abs" then _ else _) = _
          rw [if_neg habs]
    · rw [if_pos (by rw [Bool.eq_false_of_not_eq_true hret]; rfl),
        if_neg fun h => hret (hattr.mp h.1), decide_eq_false fun h => hret (hattr.mp h.1)]

theorem final_reached (v : Visitor) (cbs : List Callback) :
    (StopRun.final (StopRun.run Visitor.callback v cbs)).reached =
      v.reached ++ visits v.currFunc cbs := by
  induction cbs generalizing v with
  | nil => exact (List.append_nil _).symm
  | cons cb rest ih =>
    cases cb with
    | enter fd =>
      rw [StopRun.run_cons_ok rfl]
      exact ih (v.visitFunctionDecl fd)
    | call children innermost =>
      have hstep : v.callback (.call children innermost) = _ := visitCall_eq v children
      rw [visits]
      by_cases hfault : Faults v.currFunc children
      · rw [if_pos hfault] at hstep
        rw [StopRun.run_cons_error hstep, if_pos hfault,
          decide_eq_false fun h => not_takenForAbs hfault.2 h.2]
        rfl
      · rw [if_neg hfault] at hstep
        rw [StopRun.run_cons_ok hstep, if_neg hfault, ih]
        exact List.append_assoc ..

/-! ## The condition, callback by callback -/

/-- `LastAgrees` in the order of the callbacks. -/
def Agrees : Option FunctionDecl → List Callback → Prop
  | _, [] => True
  | _, .enter fd :: rest => Agrees (some fd) rest
  | last, .call children innermost :: rest =>
    (CallsAbs children → (NoReturn last ∧ TakenForAbs children ↔ NoReturn innermost)) ∧
      (¬Faults last children → Agrees last rest)

theorem rewritten_iff_agrees (last : Option FunctionDecl) (cbs : List Callback) :
    List.Forall₂ RewrittenByFunction ((calls cbs).take (visits last cbs).length) (visits last cbs) ↔
      Agrees last cbs := by
  induction cbs generalizing last with
  | nil => exact ⟨fun _ => trivial, fun _ => .nil⟩
  | cons cb rest ih =>
    cases cb with
    | enter fd => exact ih (some fd)
    | call children innermost =>
      rw [calls, visits, List.length_cons, List.take_succ_cons, List.forall₂_cons, Agrees,
        RewrittenByFunction, decide_eq_true_iff]
      by_cases hfault : Faults last children
      · -- the run ends here, and no later call is reached
        rw [if_pos hfault]
        constructor
        · exact fun h => ⟨h.1.2, fun hnot => absurd hfault hnot⟩
        · exact fun h => ⟨⟨rfl, h.1⟩, .nil⟩
      · rw [if_neg hfault, ih]
        constructor
        · exact fun h => ⟨h.1.2, fun _ => h.2⟩
        · exact fun h => ⟨⟨rfl, h.1⟩, h.2 hfault⟩

theorem survived_nil (first : Option FunctionDecl) : Survived first [] :=
  StopRun.forall_places_nil (f := Callback.call)

theorem survived_enter {first : Option FunctionDecl} {fd : FunctionDecl} {before : List Callback} :
    Survived first (.enter fd :: before) ↔ Survived (some fd) before :=
  (StopRun.forall_places_cons (f := Callback.call)).trans (and_iff_right nofun)

theorem survived_call {first innermost : Option FunctionDecl} {children : List Node}
    {before : List Callback} :
    Survived first (.call children innermost :: before) ↔
      ¬Faults first children ∧ Survived first before := by
  refine (StopRun.forall_places_cons (f := Callback.call)).trans (and_congr_left' ?_)
  constructor
  · exact fun h => h children innermost rfl
  · rintro h _ _ ⟨⟩
    exact h

theorem lastAgrees_iff_agrees (first : Option FunctionDecl) (cbs : List Callback) :
    LastAgrees first cbs ↔ Agrees first cbs := by
  induction cbs generalizing first with
  | nil => exact iff_of_true (StopRun.forall_places_nil (f := Callback.call)) trivial
  | cons cb rest ih =>
    cases cb with
    | enter fd =>
      rw [Agrees, ← ih]
      refine (StopRun.forall_places_cons (f := Callback.call)).trans ?_
      rw [and_iff_right nofun]
      refine forall₅_congr fun before children innermost after _ => ?_
      rw [survived_enter]
      rfl
    | call children innermost =>
      rw [Agrees, ← ih]
      refine (StopRun.forall_places_cons (f := Callback.call)).trans (and_congr ?_ ?_)
      · constructor
        · exact fun h => h children innermost rfl (survived_nil first)
        · rintro h _ _ ⟨⟩ -
          exact h
      · -- a later call is one that a run past this one comes to
        constructor
        · intro h hfault before children' innermost' after hsplit hbefore
          exact h before children' innermost' after hsplit (survived_call.mpr ⟨hfault, hbefore⟩)
        · intro h before children' innermost' after hsplit hbefore
          obtain ⟨hfault, hbefore⟩ := survived_call.mp hbefore
          exact h hfault before children' innermost' after hsplit hbefore

theorem appliesByFunction_iff_agrees (entersLambda : Bool) (unit : List (List Node)) :
    AppliesByFunction entersLambda unit ↔ Agrees none (unitCallbacks entersLambda unit) := by
  have hreached : (StopRun.final (handleTopLevelDecls entersLambda unit)).reached =
      visits none (unitCallbacks entersLambda unit) := by
    rw [handleTopLevelDecls_eq_run, final_reached]
    rfl
  rw [AppliesByFunction, hreached]
  exact rewritten_iff_agrees none _

/-- The plugin goes by the enclosing functions exactly where the declarations that it meets
last agree with them. -/
theorem appliesByFunction_iff (entersLambda : Bool) (unit : List (List Node)) :
    AppliesByFunction entersLambda unit ↔ LastAgrees none (unitCallbacks entersLambda unit) := by
  rw [appliesByFunction_iff_agrees, lastAgrees_iff_agrees]

/-- In `_Noreturn double test() { double g(double); return A::abs(x); }` the declaration of
`g` hides the attribute. -/
def localDeclaration : List Node :=
  [.functionDecl ⟨"test", true⟩ []
    [.other [.functionDecl ⟨"g", false⟩ [.other []] []],
      .other [.callExpr [.implicitCastExpr (.declRefExpr (some ⟨"A::abs", false⟩)),
        .declRefExpr none]]]]

theorem not_appliesByFunction_localDeclaration : ¬AppliesByFunction true [localDeclaration] := by
  rw [appliesByFunction_iff_agrees]
  rintro ⟨hcall, -⟩
  exact absurd ((hcall rfl).mpr rfl) (by decide)

/-! ## Units of functions that contain no functions -/

mutual

/-- No function stands in the node. -/
def Node.Simple : Node → Prop
  | .functionDecl _ _ _ => False
  | .lambdaExpr _ _ _ => False
  | .callExpr children => Node.SimpleAll children
  | .implicitCastExpr sub => sub.Simple
  | .parenExpr sub => sub.Simple
  | .declRefExpr _ => True
  | .other children => Node.SimpleAll children

def Node.SimpleAll : List Node → Prop
  | [] => True
  | node :: rest => node.Simple ∧ Node.SimpleAll rest

end

/-- The function entered last is the innermost one at every call. -/
def InStep : Option FunctionDecl → List Callback → Prop
  | _, [] => True
  | _, .enter fd :: rest => InStep (some fd) rest
  | last, .call _ innermost :: rest => innermost = last ∧ InStep last rest

theorem lastEntered_append (first : Option FunctionDecl) (xs ys : List Callback) :
    lastEntered first (xs ++ ys) = lastEntered (lastEntered first xs) ys := by
  induction xs generalizing first with
  | nil => rfl
  | cons cb rest ih =>
    cases cb with
    | enter fd => exact ih (some fd)
    | call children innermost => exact ih first

theorem inStep_append {last : Option FunctionDecl} {xs ys : List Callback} (hx : InStep last xs)
    (hy : InStep (lastEntered last xs) ys) : InStep last (xs ++ ys) := by
  induction xs generalizing last with
  | nil => exact hy
  | cons cb rest ih =>
    cases cb with
    | enter fd => exact ih hx hy
    | call children innermost => exact ⟨hx.1, ih hx.2 hy⟩

theorem agrees_of_inStep {last : Option FunctionDecl} {cbs : List Callback} (h : InStep last cbs)
    (hdirect : ∀ call ∈ calls cbs, CallsAbs call.1 → NoReturn call.2 → TakenForAbs call.1) :
    Agrees last cbs := by
  induction cbs generalizing last with
  | nil => trivial
  | cons cb rest ih =>
    cases cb with
    | enter fd => exact ih h hdirect
    | call children innermost =>
      obtain ⟨rfl, hrest⟩ := h
      obtain ⟨hhead, htail⟩ := List.forall_mem_cons.mp hdirect
      refine ⟨?_, fun _ => ih hrest htail⟩
      intro habs
      exact ⟨And.left, fun hret => ⟨hret, hhead habs hret⟩⟩

section Simple

variable (entersLambda : Bool) (f : Option FunctionDecl)

mutual

theorem inStep_simple : ∀ node : Node, node.Simple →
    InStep f (callbacks entersLambda f node) ∧ lastEntered f (callbacks entersLambda f node) = f
  | .functionDecl _ _ _, h => by
    rw [Node.Simple] at h
    exact h.elim
  | .lambdaExpr _ _ _, h => by
    rw [Node.Simple] at h
    exact h.elim
  | .callExpr children, h => by
    rw [Node.Simple] at h
    rw [callbacks]
    obtain ⟨hstep, hlast⟩ := inStep_simpleAll children h
    exact ⟨⟨rfl, hstep⟩, hlast⟩
  | .implicitCastExpr sub, h => by
    rw [Node.Simple] at h
    rw [callbacks]
    exact inStep_simple sub h
  | .parenExpr sub, h => by
    rw [Node.Simple] at h
    rw [callbacks]
    exact inStep_simple sub h
  | .declRefExpr _, _ => by
    rw [callbacks]
    exact ⟨trivial, rfl⟩
  | .other children, h => by
    rw [Node.Simple] at h
    rw [callbacks]
    exact inStep_simpleAll children h

theorem inStep_simpleAll : ∀ nodes : List Node, Node.SimpleAll nodes →
    InStep f (callbacksAll entersLambda f nodes) ∧
      lastEntered f (callbacksAll entersLambda f nodes) = f
  | [], _ => by
    rw [callbacksAll]
    exact ⟨trivial, rfl⟩
  | node :: rest, h => by
    rw [Node.SimpleAll] at h
    rw [callbacksAll]
    obtain ⟨hstep, hlast⟩ := inStep_simple node h.1
    obtain ⟨hsteps, hlasts⟩ := inStep_simpleAll rest h.2
    refine ⟨inStep_append hstep (hlast.symm ▸ hsteps), ?_⟩
    rw [lastEntered_append, hlast, hlasts]

end

end Simple

/-- A function with a simple body, and without calls and functions in its header. -/
def Flat (entersLambda : Bool) (node : Node) : Prop :=
  ∃ fd header body, node = .functionDecl fd header body ∧ Node.SimpleAll body ∧
    callbacksAll entersLambda none header = []

theorem inStep_flat {entersLambda : Bool} {nodes : List Node}
    (h : ∀ node ∈ nodes, Flat entersLambda node) (last : Option FunctionDecl) :
    InStep last (callbacksAll entersLambda none nodes) := by
  induction nodes generalizing last with
  | nil =>
    rw [callbacksAll]
    trivial
  | cons node rest ih =>
    obtain ⟨⟨fd, header, body, rfl, hbody, hheader⟩, hrest⟩ := List.forall_mem_cons.mp h
    rw [callbacksAll, callbacks, hheader]
    exact inStep_append (inStep_simpleAll entersLambda (some fd) body hbody).1 (ih hrest _)

/-- In a unit of flat functions that spell `A::abs` without parentheses, the plugin goes by
the enclosing functions. -/
theorem appliesByFunction_of_flat {entersLambda : Bool} {unit : List (List Node)}
    (h : ∀ group ∈ unit, ∀ node ∈ group, Flat entersLambda node)
    (hdirect : ∀ call ∈ calls (unitCallbacks entersLambda unit),
      CallsAbs call.1 → NoReturn call.2 → TakenForAbs call.1) :
    AppliesByFunction entersLambda unit := by
  have hstep : ∀ last, InStep last (unitCallbacks entersLambda unit) := by
    clear hdirect
    induction unit with
    | nil => exact fun _ => trivial
    | cons group rest ih =>
      intro last
      obtain ⟨hgroup, hrest⟩ := List.forall_mem_cons.mp h
      rw [unitCallbacks, List.flatMap_cons]
      exact inStep_append (inStep_flat hgroup last) (ih hrest _)
  exact (appliesByFunction_iff_agrees entersLambda unit).mpr (agrees_of_inStep (hstep none) hdirect)

end Cpu0Toolchain.ClangTools
