import Simian.Tree

/-!
# Settled programs

A machine copies what a closure captures when the closure is made, while the evaluator
looks a name up when it is used. The two can be told apart only where a name is bound
after a function literal in which it occurs free, or where a `let` may be passed by.
A settled program does neither: each `let` is a statement of the program or of a function
body itself, and no `let` binds a name that a literal before it closed over. At program
level a name may be bound again if it was bound before that literal.

A direct program keeps only the first of these rules, that no `let` stands in a block.
-/
namespace Simian

mutual

/-- Names that occur free. A `let` binds its name from behind its value on. -/
def Expr.free : Expr → List String
  | .ident name _ => [name]
  | .integer .. | .boolean .. | .string .. => []
  | .unary _ operand _ | .bump _ operand _ => operand.free
  | .binary _ left right _ | .logical _ left right _ => left.free ++ right.free
  | .ifThen condition (.mk statements _) _ => condition.free ++ freeInStmts statements
  | .ifElse condition (.mk first _) (.mk second _) _ =>
    condition.free ++ (freeInStmts first ++ freeInStmts second)
  | .function name parameters (.mk body _) _ =>
    (freeInStmts body).filter fun other => name != some other && !parameters.contains other
  | .array elements _ => freeInExprs elements
  | .hash pairs _ => freeInEntries pairs
  | .call callee arguments _ => callee.free ++ freeInExprs arguments
  | .index collection key _ => collection.free ++ key.free

def freeInExprs : List Expr → List String
  | [] => []
  | item :: rest => item.free ++ freeInExprs rest

def freeInEntries : List (Expr × Expr) → List String
  | [] => []
  | (key, value) :: rest => key.free ++ (value.free ++ freeInEntries rest)

def freeInStmts : List Stmt → List String
  | [] => []
  | .bind name value _ :: rest => value.free ++ (freeInStmts rest).filter (· != name)
  | .ret value _ :: rest | .expr value _ :: rest => value.free ++ freeInStmts rest
  | .retNull _ :: rest => freeInStmts rest

end

mutual

/-- Names that occur free in the function literals of the expression. -/
def Expr.closed : Expr → List String
  | .ident .. | .integer .. | .boolean .. | .string .. => []
  | .unary _ operand _ | .bump _ operand _ => operand.closed
  | .binary _ left right _ | .logical _ left right _ => left.closed ++ right.closed
  | .ifThen condition (.mk statements _) _ => condition.closed ++ closedInStmts statements
  | .ifElse condition (.mk first _) (.mk second _) _ =>
    condition.closed ++ (closedInStmts first ++ closedInStmts second)
  | .function name parameters body span => (Expr.function name parameters body span).free
  | .array elements _ => closedInExprs elements
  | .hash pairs _ => closedInEntries pairs
  | .call callee arguments _ => callee.closed ++ closedInExprs arguments
  | .index collection key _ => collection.closed ++ key.closed

def closedInExprs : List Expr → List String
  | [] => []
  | item :: rest => item.closed ++ closedInExprs rest

def closedInEntries : List (Expr × Expr) → List String
  | [] => []
  | (key, value) :: rest => key.closed ++ (value.closed ++ closedInEntries rest)

def Stmt.closed : Stmt → List String
  | .bind _ value _ | .ret value _ | .expr value _ => value.closed
  | .retNull _ => []

def closedInStmts : List Stmt → List String
  | [] => []
  | statement :: rest => statement.closed ++ closedInStmts rest

end

mutual

/-- Whether blocks bind nothing and bodies of functions are settled. -/
def Expr.isSettled : Expr → Bool
  | .ident .. | .integer .. | .boolean .. | .string .. => true
  | .unary _ operand _ | .bump _ operand _ => operand.isSettled
  | .binary _ left right _ | .logical _ left right _ => left.isSettled && right.isSettled
  | .ifThen condition (.mk statements _) _ => condition.isSettled && areSettledInBlock statements
  | .ifElse condition (.mk first _) (.mk second _) _ =>
    condition.isSettled && (areSettledInBlock first && areSettledInBlock second)
  | .function _ _ (.mk body _) _ => areSettledInBody [] body
  | .array elements _ => areSettledExprs elements
  | .hash pairs _ => areSettledEntries pairs
  | .call callee arguments _ => callee.isSettled && areSettledExprs arguments
  | .index collection key _ => collection.isSettled && key.isSettled

def areSettledExprs : List Expr → Bool
  | [] => true
  | item :: rest => item.isSettled && areSettledExprs rest

def areSettledEntries : List (Expr × Expr) → Bool
  | [] => true
  | (key, value) :: rest => key.isSettled && (value.isSettled && areSettledEntries rest)

/-- Whether the statements of an `if` block are settled and bind nothing. -/
def areSettledInBlock : List Stmt → Bool
  | [] => true
  | .bind .. :: _ => false
  | .ret value _ :: rest | .expr value _ :: rest => value.isSettled && areSettledInBlock rest
  | .retNull _ :: rest => areSettledInBlock rest

/-- Whether the statements of a function body are settled, where literals before them have closed
over these names. -/
def areSettledInBody (closed : List String) : List Stmt → Bool
  | [] => true
  | .bind name value _ :: rest =>
    value.isSettled && (!(closed ++ value.closed).contains name &&
      areSettledInBody (closed ++ value.closed) rest)
  | .ret value _ :: rest | .expr value _ :: rest =>
    value.isSettled && areSettledInBody (closed ++ value.closed) rest
  | .retNull _ :: rest => areSettledInBody closed rest

end

/-- Whether the statements of a program are settled. The names of the first list have been bound,
and literals have closed over those of the second before they were. -/
def areSettledAtTop (bound closed : List String) : List Stmt → Bool
  | [] => true
  | .bind name value _ :: rest =>
    let later := closed ++ value.closed.filter (!bound.contains ·)
    value.isSettled && (!later.contains name && areSettledAtTop (name :: bound) later rest)
  | .ret value _ :: rest | .expr value _ :: rest =>
    value.isSettled &&
      areSettledAtTop bound (closed ++ value.closed.filter (!bound.contains ·)) rest
  | .retNull _ :: rest => areSettledAtTop bound closed rest

def Program.isSettled (tree : Program) : Bool := areSettledAtTop [] [] tree.statements

theorem areSettledInBlock_rest {statement : Stmt} {rest : List Stmt}
    (h : areSettledInBlock (statement :: rest) = true) : areSettledInBlock rest = true := by
  cases statement <;> simp_all [areSettledInBlock]

theorem areSettledInBody_rest {closed : List String} {statement : Stmt} {rest : List Stmt}
    (h : areSettledInBody closed (statement :: rest) = true) :
    areSettledInBody (closed ++ statement.closed) rest = true := by
  cases statement <;> simp_all [areSettledInBody, Stmt.closed]

/-! ### Blocks that bind nothing -/

mutual

/-- Whether blocks bind nothing, those in the bodies of functions included. -/
def Expr.isDirect : Expr → Bool
  | .ident .. | .integer .. | .boolean .. | .string .. => true
  | .unary _ operand _ | .bump _ operand _ => operand.isDirect
  | .binary _ left right _ | .logical _ left right _ => left.isDirect && right.isDirect
  | .ifThen condition (.mk statements _) _ => condition.isDirect && areDirectInBlock statements
  | .ifElse condition (.mk first _) (.mk second _) _ =>
    condition.isDirect && (areDirectInBlock first && areDirectInBlock second)
  | .function _ _ (.mk body _) _ => areDirectStmts body
  | .array elements _ => areDirectExprs elements
  | .hash pairs _ => areDirectEntries pairs
  | .call callee arguments _ => callee.isDirect && areDirectExprs arguments
  | .index collection key _ => collection.isDirect && key.isDirect

def areDirectExprs : List Expr → Bool
  | [] => true
  | item :: rest => item.isDirect && areDirectExprs rest

def areDirectEntries : List (Expr × Expr) → Bool
  | [] => true
  | (key, value) :: rest => key.isDirect && (value.isDirect && areDirectEntries rest)

/-- Whether the statements of an `if` block are direct and bind nothing. -/
def areDirectInBlock : List Stmt → Bool
  | [] => true
  | .bind .. :: _ => false
  | .ret value _ :: rest | .expr value _ :: rest => value.isDirect && areDirectInBlock rest
  | .retNull _ :: rest => areDirectInBlock rest

/-- Whether the statements of a program or of a function body are direct. -/
def areDirectStmts : List Stmt → Bool
  | [] => true
  | .bind _ value _ :: rest | .ret value _ :: rest | .expr value _ :: rest =>
    value.isDirect && areDirectStmts rest
  | .retNull _ :: rest => areDirectStmts rest

end

/-- Whether each `let` of the program is a statement of the program or of a function body itself,
so that running past it takes a return or a fault. -/
def Program.isDirect (tree : Program) : Bool := areDirectStmts tree.statements

mutual

theorem Expr.isDirect_of_isSettled {tree : Expr} (h : tree.isSettled = true) :
    tree.isDirect = true := by
  match tree with
  | .ident .. | .integer .. | .boolean .. | .string .. => rfl
  | .unary .. | .bump .. =>
    rw [Expr.isSettled] at h
    rw [Expr.isDirect, Expr.isDirect_of_isSettled h]
  | .binary .. | .logical .. | .index .. =>
    rw [Expr.isSettled, Bool.and_eq_true] at h
    rw [Expr.isDirect, Expr.isDirect_of_isSettled h.1, Expr.isDirect_of_isSettled h.2,
      Bool.and_self]
  | .ifThen _ (.mk ..) _ =>
    rw [Expr.isSettled, Bool.and_eq_true] at h
    rw [Expr.isDirect, Expr.isDirect_of_isSettled h.1, areDirectInBlock_of_settled h.2,
      Bool.and_self]
  | .ifElse _ (.mk ..) (.mk ..) _ =>
    rw [Expr.isSettled, Bool.and_eq_true, Bool.and_eq_true] at h
    rw [Expr.isDirect, Expr.isDirect_of_isSettled h.1, areDirectInBlock_of_settled h.2.1,
      areDirectInBlock_of_settled h.2.2, Bool.and_self, Bool.and_self]
  | .function _ _ (.mk ..) _ =>
    rw [Expr.isSettled] at h
    rw [Expr.isDirect, areDirectStmts_of_settled h]
  | .array .. =>
    rw [Expr.isSettled] at h
    rw [Expr.isDirect, areDirectExprs_of_settled h]
  | .hash .. =>
    rw [Expr.isSettled] at h
    rw [Expr.isDirect, areDirectEntries_of_settled h]
  | .call .. =>
    rw [Expr.isSettled, Bool.and_eq_true] at h
    rw [Expr.isDirect, Expr.isDirect_of_isSettled h.1, areDirectExprs_of_settled h.2, Bool.and_self]

theorem areDirectExprs_of_settled {items : List Expr} (h : areSettledExprs items = true) :
    areDirectExprs items = true := by
  match items with
  | [] => rfl
  | item :: rest =>
    rw [areSettledExprs, Bool.and_eq_true] at h
    rw [areDirectExprs, Expr.isDirect_of_isSettled h.1, areDirectExprs_of_settled h.2,
      Bool.and_self]

theorem areDirectEntries_of_settled {pairs : List (Expr × Expr)}
    (h : areSettledEntries pairs = true) : areDirectEntries pairs = true := by
  match pairs with
  | [] => rfl
  | (key, value) :: rest =>
    rw [areSettledEntries, Bool.and_eq_true, Bool.and_eq_true] at h
    rw [areDirectEntries, Expr.isDirect_of_isSettled h.1, Expr.isDirect_of_isSettled h.2.1,
      areDirectEntries_of_settled h.2.2, Bool.and_self, Bool.and_self]

theorem areDirectInBlock_of_settled {statements : List Stmt}
    (h : areSettledInBlock statements = true) : areDirectInBlock statements = true := by
  match statements with
  | [] => rfl
  | .bind .. :: _ => cases h
  | .ret .. :: _ | .expr .. :: _ =>
    rw [areSettledInBlock, Bool.and_eq_true] at h
    rw [areDirectInBlock, Expr.isDirect_of_isSettled h.1, areDirectInBlock_of_settled h.2,
      Bool.and_self]
  | .retNull _ :: _ =>
    rw [areSettledInBlock] at h
    rw [areDirectInBlock, areDirectInBlock_of_settled h]

theorem areDirectStmts_of_settled {closed : List String} {statements : List Stmt}
    (h : areSettledInBody closed statements = true) : areDirectStmts statements = true := by
  match statements with
  | [] => rfl
  | .bind .. :: _ =>
    rw [areSettledInBody, Bool.and_eq_true, Bool.and_eq_true] at h
    rw [areDirectStmts, Expr.isDirect_of_isSettled h.1, areDirectStmts_of_settled h.2.2,
      Bool.and_self]
  | .ret .. :: _ | .expr .. :: _ =>
    rw [areSettledInBody, Bool.and_eq_true] at h
    rw [areDirectStmts, Expr.isDirect_of_isSettled h.1, areDirectStmts_of_settled h.2,
      Bool.and_self]
  | .retNull _ :: _ =>
    rw [areSettledInBody] at h
    rw [areDirectStmts, areDirectStmts_of_settled h]

end

/-! ### Parameters -/

mutual

/-- Whether no function literal has two parameters of one name. -/
def Expr.isDistinct : Expr → Bool
  | .ident .. | .integer .. | .boolean .. | .string .. => true
  | .unary _ operand _ | .bump _ operand _ => operand.isDistinct
  | .binary _ left right _ | .logical _ left right _ => left.isDistinct && right.isDistinct
  | .ifThen condition (.mk statements _) _ => condition.isDistinct && areDistinctStmts statements
  | .ifElse condition (.mk first _) (.mk second _) _ =>
    condition.isDistinct && (areDistinctStmts first && areDistinctStmts second)
  | .function _ parameters (.mk body _) _ => decide parameters.Nodup && areDistinctStmts body
  | .array elements _ => areDistinctExprs elements
  | .hash pairs _ => areDistinctEntries pairs
  | .call callee arguments _ => callee.isDistinct && areDistinctExprs arguments
  | .index collection key _ => collection.isDistinct && key.isDistinct

def areDistinctExprs : List Expr → Bool
  | [] => true
  | item :: rest => item.isDistinct && areDistinctExprs rest

def areDistinctEntries : List (Expr × Expr) → Bool
  | [] => true
  | (key, value) :: rest => key.isDistinct && (value.isDistinct && areDistinctEntries rest)

def Stmt.isDistinct : Stmt → Bool
  | .bind _ value _ | .ret value _ | .expr value _ => value.isDistinct
  | .retNull _ => true

def areDistinctStmts : List Stmt → Bool
  | [] => true
  | statement :: rest => statement.isDistinct && areDistinctStmts rest

end

end Simian
