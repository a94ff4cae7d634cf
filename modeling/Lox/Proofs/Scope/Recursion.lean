import Lox.Scope.Walk

/-!
# The walk by recursion

What the tasks of a tree do, one after the other, is one recursion over the tree: doing `n` tasks more
than a tree makes, with the tree on top of the stack, is walking over the tree and then doing `n` tasks
of what lies below. So a walk over a program comes to its end, and nothing remains on the stack.
-/

namespace Lox.Resolution

variable {ι : Type}

mutual

def walkExpr (rules : Rules) : Expr ι → Walk ι Unit
  | .literal _ _ => pure ()
  | .varRef span name node => do
    checkReady name span
    locate rules node name span
  | .assign span name node value => do
    walkExpr rules value
    locate rules node name span
  | .unary _ _ operand => walkExpr rules operand
  | .binary _ _ left right | .logical _ _ left right => do
    walkExpr rules left
    walkExpr rules right
  | .call _ callee arguments => do
    walkExpr rules callee
    walkExprs rules arguments
  | .group _ inner => walkExpr rules inner

def walkExprs (rules : Rules) : List (Expr ι) → Walk ι Unit
  | [] => pure ()
  | e :: es => do
    walkExpr rules e
    walkExprs rules es

end

def walkOptional (rules : Rules) : Option (Expr ι) → Walk ι Unit
  | none => pure ()
  | some e => walkExpr rules e

mutual

def walkStmt (rules : Rules) : Stmt ι → Walk ι Unit
  | .expression _ e | .print _ e => walkExpr rules e
  | .varDecl span name initializer => do
    declare rules name span false
    walkOptional rules initializer
    define name
  | .block _ body => do
    openScope
    walkStmts rules body
    closeScope
  | .conditional _ c t none => do
    walkExpr rules c
    walkStmt rules t
  | .conditional _ c t (some e) => do
    walkExpr rules c
    walkStmt rules t
    walkStmt rules e
  | .loop _ c b => do
    walkExpr rules c
    walkStmt rules b
  | .funDecl span name params body => do
    declare rules name span true
    beginFunction params
    walkStmts rules body
    endFunction
  | .ret span value => do
    checkReturn span
    walkOptional rules value

def walkStmts (rules : Rules) : List (Stmt ι) → Walk ι Unit
  | [] => pure ()
  | s :: ss => do
    walkStmt rules s
    walkStmts rules ss

end

/-! ### Stack and recursion -/

theorem work_succ (rules : Rules) (n : Nat) (task : Task ι) (pending : List (Task ι)) :
    work rules (n + 1) (task :: pending) =
      perform rules task >>= fun parts => work rules n (parts ++ pending) := rfl

theorem work_nil (rules : Rules) (n : Nat) : work (ι := ι) rules n [] = pure [] := by
  cases n <;> rfl

mutual

theorem work_expression (rules : Rules) (e : Expr ι) (n : Nat) (pending : List (Task ι)) :
    work rules (exprTasks e + n) (.expression e :: pending) =
      walkExpr rules e >>= fun _ => work rules n pending := by
  cases e with
  | literal span v =>
    have hn : exprTasks (.literal span v : Expr ι) + n = n + 1 := Nat.add_comm _ _
    rw [hn, work_succ]
    simp only [perform, visitExpr, walkExpr, pure_bind, List.nil_append]
  | varRef span name node =>
    have hn : exprTasks (.varRef span name node) + n = n + 1 := Nat.add_comm _ _
    rw [hn, work_succ]
    simp only [perform, visitExpr, walkExpr, bind_assoc, pure_bind, List.nil_append]
  | assign span name node value =>
    have hn : exprTasks (.assign span name node value) + n = exprTasks value + (n + 1) + 1 := by
      simp only [exprTasks]
      omega
    rw [hn, work_succ]
    simp only [perform, visitExpr, walkExpr, pure_bind, List.cons_append, List.nil_append]
    rw [work_expression rules value]
    simp only [work_succ, perform, bind_assoc, pure_bind, List.nil_append]
  | unary span op operand =>
    have hn : exprTasks (.unary span op operand) + n = exprTasks operand + n + 1 := by
      simp only [exprTasks]
      omega
    rw [hn, work_succ]
    simp only [perform, visitExpr, walkExpr, pure_bind, List.cons_append, List.nil_append]
    exact work_expression rules operand n pending
  | binary span op left right =>
    have hn : exprTasks (.binary span op left right) + n =
        exprTasks left + (exprTasks right + n) + 1 := by
      simp only [exprTasks]
      omega
    rw [hn, work_succ]
    simp only [perform, visitExpr, walkExpr, bind_assoc, pure_bind, List.cons_append,
      List.nil_append]
    rw [work_expression rules left]
    simp only [work_expression rules right]
  | logical span op left right =>
    have hn : exprTasks (.logical span op left right) + n =
        exprTasks left + (exprTasks right + n) + 1 := by
      simp only [exprTasks]
      omega
    rw [hn, work_succ]
    simp only [perform, visitExpr, walkExpr, bind_assoc, pure_bind, List.cons_append,
      List.nil_append]
    rw [work_expression rules left]
    simp only [work_expression rules right]
  | call span callee arguments =>
    have hn : exprTasks (.call span callee arguments) + n =
        exprTasks callee + (exprsTasks arguments + n) + 1 := by
      simp only [exprTasks]
      omega
    rw [hn, work_succ]
    simp only [perform, visitExpr, walkExpr, bind_assoc, pure_bind, List.cons_append]
    rw [work_expression rules callee]
    simp only [work_expressions rules arguments]
  | group span inner =>
    have hn : exprTasks (.group span inner) + n = exprTasks inner + n + 1 := by
      simp only [exprTasks]
      omega
    rw [hn, work_succ]
    simp only [perform, visitExpr, walkExpr, pure_bind, List.cons_append, List.nil_append]
    exact work_expression rules inner n pending

theorem work_expressions (rules : Rules) (es : List (Expr ι)) (n : Nat)
    (pending : List (Task ι)) :
    work rules (exprsTasks es + n) (es.map .expression ++ pending) =
      walkExprs rules es >>= fun _ => work rules n pending := by
  cases es with
  | nil => simp only [exprsTasks, walkExprs, List.map_nil, List.nil_append, Nat.zero_add, pure_bind]
  | cons e es =>
    simp only [exprsTasks, walkExprs, List.map_cons, List.cons_append, Nat.add_assoc, bind_assoc]
    rw [work_expression rules e]
    simp only [work_expressions rules es]

end

theorem work_optional (rules : Rules) (e : Option (Expr ι)) (n : Nat) (pending : List (Task ι)) :
    work rules (optionalTasks e + n) (e.toList.map .expression ++ pending) =
      walkOptional rules e >>= fun _ => work rules n pending := by
  cases e with
  | none =>
    simp only [optionalTasks, walkOptional, Option.toList_none, List.map_nil, List.nil_append,
      Nat.zero_add, pure_bind]
  | some e =>
    simp only [optionalTasks, walkOptional, Option.toList_some, List.map_cons, List.map_nil,
      List.cons_append, List.nil_append]
    exact work_expression rules e n pending

mutual

theorem work_statement (rules : Rules) (s : Stmt ι) (n : Nat) (pending : List (Task ι)) :
    work rules (stmtTasks s + n) (.statement s :: pending) =
      walkStmt rules s >>= fun _ => work rules n pending := by
  -- Each task takes one turn, so the turns of the parts add up in the order in which they are pending.
  cases s with
  | expression span e =>
    have hn : stmtTasks (.expression span e) + n = exprTasks e + n + 1 := by
      simp only [stmtTasks]
      omega
    rw [hn, work_succ]
    simp only [perform, visitStmt, walkStmt, pure_bind, List.cons_append, List.nil_append]
    exact work_expression rules e n pending
  | print span e =>
    have hn : stmtTasks (.print span e) + n = exprTasks e + n + 1 := by
      simp only [stmtTasks]
      omega
    rw [hn, work_succ]
    simp only [perform, visitStmt, walkStmt, pure_bind, List.cons_append, List.nil_append]
    exact work_expression rules e n pending
  | varDecl span name initializer =>
    have hn : stmtTasks (.varDecl span name initializer) + n =
        optionalTasks initializer + (n + 1) + 1 := by
      simp only [stmtTasks]
      omega
    rw [hn, work_succ]
    simp only [perform, visitStmt, walkStmt, bind_assoc, pure_bind, List.append_assoc,
      List.cons_append, List.nil_append, work_optional, work_succ]
  | block span body =>
    have hn : stmtTasks (.block span body) + n = stmtsTasks body + (n + 1) + 1 := by
      simp only [stmtTasks]
      omega
    rw [hn, work_succ]
    simp only [perform, visitStmt, walkStmt, bind_assoc, pure_bind, List.append_assoc,
      List.cons_append, List.nil_append, work_statements rules body, work_succ]
  | conditional span c t e =>
    cases e with
    | none =>
      have hn : stmtTasks (.conditional span c t none) + n =
          exprTasks c + (stmtTasks t + n) + 1 := by
        simp only [stmtTasks]
        omega
      rw [hn, work_succ]
      simp only [perform, visitStmt, walkStmt, bind_assoc, pure_bind, List.cons_append,
        List.nil_append, Option.toList_none, List.map_nil, work_expression]
      simp only [work_statement rules t]
    | some e =>
      have hn : stmtTasks (.conditional span c t (some e)) + n =
          exprTasks c + (stmtTasks t + (stmtTasks e + n)) + 1 := by
        simp only [stmtTasks]
        omega
      rw [hn, work_succ]
      simp only [perform, visitStmt, walkStmt, bind_assoc, pure_bind, List.cons_append,
        List.nil_append, Option.toList_some, List.map_cons, List.map_nil, work_expression]
      simp only [work_statement rules t, work_statement rules e]
  | loop span c b =>
    have hn : stmtTasks (.loop span c b) + n = exprTasks c + (stmtTasks b + n) + 1 := by
      simp only [stmtTasks]
      omega
    rw [hn, work_succ]
    simp only [perform, visitStmt, walkStmt, bind_assoc, pure_bind, List.cons_append,
      List.nil_append, work_expression]
    simp only [work_statement rules b]
  | funDecl span name params body =>
    have hn : stmtTasks (.funDecl span name params body) + n =
        stmtsTasks body + (n + 1) + 1 + 1 := by
      simp only [stmtTasks]
      omega
    rw [hn, work_succ]
    simp only [perform, visitStmt, walkStmt, bind_assoc, pure_bind, List.append_assoc,
      List.cons_append, List.nil_append, work_succ, work_statements rules body]
  | ret span value =>
    have hn : stmtTasks (.ret span value) + n = optionalTasks value + n + 1 := by
      simp only [stmtTasks]
      omega
    rw [hn, work_succ]
    simp only [perform, visitStmt, walkStmt, bind_assoc, pure_bind, work_optional]

theorem work_statements (rules : Rules) (ss : List (Stmt ι)) (n : Nat)
    (pending : List (Task ι)) :
    work rules (stmtsTasks ss + n) (ss.map .statement ++ pending) =
      walkStmts rules ss >>= fun _ => work rules n pending := by
  cases ss with
  | nil => simp only [stmtsTasks, walkStmts, List.map_nil, List.nil_append, Nat.zero_add, pure_bind]
  | cons s ss =>
    simp only [stmtsTasks, walkStmts, List.map_cons, List.cons_append, Nat.add_assoc, bind_assoc]
    rw [work_statement rules s]
    simp only [work_statements rules ss]

end

/-- The walk over a program comes to its end: it is the recursion from nothing, and no task remains. -/
theorem walkProgram_eq (rules : Rules) (p : Program ι) (before : Progress ι) :
    (walkProgram rules p).run before = ([], ((walkStmts rules p.statements).run {}).2) := by
  have h := work_statements rules p.statements 0 []
  rw [Nat.add_zero, List.append_nil] at h
  simp only [walkProgram, h, work_nil]
  rfl

end Lox.Resolution
