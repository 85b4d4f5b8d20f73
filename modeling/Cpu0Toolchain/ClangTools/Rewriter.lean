import Cpu0Toolchain.Library.ForLoop

/-!
# The Rewriter plugin

The visitor of `Rewriter/plugin/Rewriter/MyASTConsumer.cpp` over the parts of a syntax tree
that it looks at. `RecursiveASTVisitor` calls it in pre-order, and gives it no callback on
leaving a node. Whether it enters the call operator of a lambda as a function declaration
depends on its version, and stands open.
-/

namespace Cpu0Toolchain.ClangTools

structure FunctionDecl where
  /-- `getQualifiedNameAsString` -/
  qualifiedName : String
  /-- `hasAttr<C11NoReturnAttr>` -/
  noReturn : Bool
  deriving DecidableEq

/-- Declarations and statements. A declaration without a body has the body `[]`, and what
comes before the body (parameters, their defaults, initialisers) is the header. -/
inductive Node
  | functionDecl (fd : FunctionDecl) (header body : List Node)
  | lambdaExpr (callOperator : FunctionDecl) (header body : List Node)
  | callExpr (children : List Node)
  | implicitCastExpr (sub : Node)
  | parenExpr (sub : Node)
  | declRefExpr (decl : Option FunctionDecl)
  | other (children : List Node)

/-- `MyASTVisitor`, and the call expressions it has been called for. -/
structure Visitor where
  currFunc : Option FunctionDecl
  /-- The children of each call, and whether the text of the callee was replaced. -/
  reached : List (List Node × Bool)

inductive Fault
  | nullDereference

namespace Visitor

def visitFunctionDecl (fd : FunctionDecl) (v : Visitor) : Visitor := { v with currFunc := some fd }

/-- `GetFunctionDecl`. An implicit cast has one child. -/
def getFunctionDecl (children : List Node) : Option FunctionDecl :=
  children.findSome? fun
    | .implicitCastExpr (.declRefExpr decl) => decl
    | _ => none

def reach (children : List Node) (replaced : Bool) (v : Visitor) : Visitor :=
  { v with reached := v.reached ++ [(children, replaced)] }

/-- `createBuiltinFunc`, up to its messages. -/
def createBuiltinFunc (children : List Node) (fd : FunctionDecl) (v : Visitor) : Visitor :=
  if fd.qualifiedName = "A::abs" then v.reach children true else v.reach children false

/-- `VisitStmt` of a call. -/
def visitCall (children : List Node) (v : Visitor) : Except (Fault × Visitor) Visitor :=
  match v.currFunc with
  | none => .ok (v.reach children false)
  | some currFunc =>
    if !currFunc.noReturn then .ok (v.reach children false)
    else
      match getFunctionDecl children with
      | none => .error (.nullDereference, v.reach children false)
      | some fd =>
        if fd.qualifiedName = "A::abs" then .ok (v.createBuiltinFunc children fd)
        else .ok (v.reach children false)

mutual

/-- `TraverseDecl` and `TraverseStmt`. `VisitStmt` of a statement that is no call has no
effect. -/
def traverse (entersLambda : Bool) : Node → Visitor → Except (Fault × Visitor) Visitor
  | .functionDecl fd header body, v => do
    let v ← traverseAll entersLambda header (v.visitFunctionDecl fd)
    traverseAll entersLambda body v
  | .lambdaExpr callOperator header body, v => do
    let v ← traverseAll entersLambda header
      (if entersLambda then v.visitFunctionDecl callOperator else v)
    traverseAll entersLambda body v
  | .callExpr children, v => do
    let v ← v.visitCall children
    traverseAll entersLambda children v
  | .implicitCastExpr sub, v => traverse entersLambda sub v
  | .parenExpr sub, v => traverse entersLambda sub v
  | .declRefExpr _, v => .ok v
  | .other children, v => traverseAll entersLambda children v

def traverseAll (entersLambda : Bool) : List Node → Visitor → Except (Fault × Visitor) Visitor
  | [], v => .ok v
  | node :: rest, v => do
    let v ← traverse entersLambda node v
    traverseAll entersLambda rest v

end

end Visitor

/-- `HandleTopLevelDecl` for each group of top-level declarations, with the one visitor. -/
def handleTopLevelDecls (entersLambda : Bool) (unit : List (List Node)) :
    Except (Fault × Visitor) Visitor :=
  StopRun.run (fun v group => Visitor.traverseAll entersLambda group v) ⟨none, []⟩ unit

/-! ## The traversal as a list of callbacks -/

/-- A callback: a function is entered, or a call is met within the body of a function. -/
inductive Callback
  | enter (fd : FunctionDecl)
  | call (children : List Node) (innermost : Option FunctionDecl)

mutual

/-- The callbacks for a node that stands in the body of a function, or in none. -/
def callbacks (entersLambda : Bool) (innermost : Option FunctionDecl) : Node → List Callback
  | .functionDecl fd header body =>
    .enter fd :: (callbacksAll entersLambda innermost header ++
      callbacksAll entersLambda (some fd) body)
  | .lambdaExpr callOperator header body =>
    (if entersLambda then [.enter callOperator] else []) ++
      (callbacksAll entersLambda innermost header ++
        callbacksAll entersLambda (some callOperator) body)
  | .callExpr children => .call children innermost :: callbacksAll entersLambda innermost children
  | .implicitCastExpr sub => callbacks entersLambda innermost sub
  | .parenExpr sub => callbacks entersLambda innermost sub
  | .declRefExpr _ => []
  | .other children => callbacksAll entersLambda innermost children

def callbacksAll (entersLambda : Bool) (innermost : Option FunctionDecl) :
    List Node → List Callback
  | [] => []
  | node :: rest => callbacks entersLambda innermost node ++ callbacksAll entersLambda innermost rest

end

/-- The callbacks for a translation unit. -/
def unitCallbacks (entersLambda : Bool) (unit : List (List Node)) : List Callback :=
  unit.flatMap (callbacksAll entersLambda none)

namespace Visitor

def callback (v : Visitor) : Callback → Except (Fault × Visitor) Visitor
  | .enter fd => .ok (v.visitFunctionDecl fd)
  | .call children _ => v.visitCall children

mutual

/-- The traversal is a run over its callbacks, whatever the bodies around the node. -/
theorem traverse_eq_run (entersLambda : Bool) (innermost : Option FunctionDecl) :
    ∀ (node : Node) (v : Visitor), traverse entersLambda node v =
      StopRun.run callback v (callbacks entersLambda innermost node)
  | .functionDecl fd header body, v => by
    rw [traverse, callbacks, StopRun.run_cons_ok rfl, StopRun.run_append,
      traverseAll_eq_run entersLambda innermost header]
    apply congrArg
    ext v'
    rw [traverseAll_eq_run entersLambda (some fd) body]
  | .lambdaExpr callOperator header body, v => by
    -- the bodies of a lambda are in its operator, which the traversal may not visit
    have henter : StopRun.run callback v (if entersLambda then [.enter callOperator] else []) =
        .ok (if entersLambda then v.visitFunctionDecl callOperator else v) := by
      cases entersLambda <;> rfl
    rw [traverse, callbacks, StopRun.run_append_ok henter, StopRun.run_append,
      traverseAll_eq_run entersLambda innermost header]
    apply congrArg
    ext v'
    rw [traverseAll_eq_run entersLambda (some callOperator) body]
  | .callExpr children, v => by
    rw [traverse, callbacks]
    cases h : v.visitCall children with
    | ok v' =>
      rw [StopRun.run_cons_ok (show v.callback (.call children innermost) = _ from h)]
      exact traverseAll_eq_run entersLambda innermost children v'
    | error e =>
      rw [StopRun.run_cons_error (show v.callback (.call children innermost) = _ from h)]
      rfl
  | .implicitCastExpr sub, v => by
    rw [traverse, callbacks]
    exact traverse_eq_run entersLambda innermost sub v
  | .parenExpr sub, v => by
    rw [traverse, callbacks]
    exact traverse_eq_run entersLambda innermost sub v
  | .declRefExpr _, v => by
    rw [traverse, callbacks]
    rfl
  | .other children, v => by
    rw [traverse, callbacks]
    exact traverseAll_eq_run entersLambda innermost children v

theorem traverseAll_eq_run (entersLambda : Bool) (innermost : Option FunctionDecl) :
    ∀ (nodes : List Node) (v : Visitor), traverseAll entersLambda nodes v =
      StopRun.run callback v (callbacksAll entersLambda innermost nodes)
  | [], v => by
    rw [traverseAll, callbacksAll]
    rfl
  | node :: rest, v => by
    rw [traverseAll, callbacksAll, StopRun.run_append, traverse_eq_run entersLambda innermost node]
    apply congrArg
    ext v'
    rw [traverseAll_eq_run entersLambda innermost rest]

end

end Visitor

theorem handleTopLevelDecls_eq_run (entersLambda : Bool) (unit : List (List Node)) :
    handleTopLevelDecls entersLambda unit =
      StopRun.run Visitor.callback ⟨none, []⟩ (unitCallbacks entersLambda unit) := by
  have hgroups : ∀ v, StopRun.run (fun v group => Visitor.traverseAll entersLambda group v) v unit =
      StopRun.run Visitor.callback v (unitCallbacks entersLambda unit) := by
    induction unit with
    | nil => exact fun v => rfl
    | cons group rest ih =>
      intro v
      rw [unitCallbacks, List.flatMap_cons, StopRun.run_append,
        ← Visitor.traverseAll_eq_run entersLambda none group v]
      cases h : Visitor.traverseAll entersLambda group v with
      | ok v' => 
        rw [StopRun.run_cons_ok h]
        exact ih v'
      | error e => exact StopRun.run_cons_error h
  exact hgroups _

end Cpu0Toolchain.ClangTools
