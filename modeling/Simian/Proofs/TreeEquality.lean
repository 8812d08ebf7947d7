import Simian.Session

/-!
# Trees can be compared

Two trees are the same if all their parts are, spans included. Equality of programs is decided by
this comparison, so what a source is parsed to can be checked by evaluating the parser. No instance
is derived for trees that hold lists of trees.
-/
namespace Simian

mutual

/-- Whether the two are the same expression, spans included. -/
def Expr.same (expr other : Expr) : Bool :=
  match expr with
  | .ident name span => match other with
    | .ident name' span' => name == name' && span == span'
    | _ => false
  | .integer value span => match other with
    | .integer value' span' => value == value' && span == span'
    | _ => false
  | .boolean value span => match other with
    | .boolean value' span' => value == value' && span == span'
    | _ => false
  | .string value span => match other with
    | .string value' span' => value == value' && span == span'
    | _ => false
  | .unary op operand span => match other with
    | .unary op' operand' span' => op == op' && operand.same operand' && span == span'
    | _ => false
  | .binary op left right span => match other with
    | .binary op' left' right' span' =>
      op == op' && left.same left' && right.same right' && span == span'
    | _ => false
  | .logical op left right span => match other with
    | .logical op' left' right' span' =>
      op == op' && left.same left' && right.same right' && span == span'
    | _ => false
  | .bump op operand span => match other with
    | .bump op' operand' span' => op == op' && operand.same operand' && span == span'
    | _ => false
  | .ifThen condition thenBlock span => match other with
    | .ifThen condition' thenBlock' span' =>
      condition.same condition' && thenBlock.same thenBlock' && span == span'
    | _ => false
  | .ifElse condition thenBlock elseBlock span => match other with
    | .ifElse condition' thenBlock' elseBlock' span' =>
      condition.same condition' && thenBlock.same thenBlock' && elseBlock.same elseBlock' &&
        span == span'
    | _ => false
  | .function name parameters body span => match other with
    | .function name' parameters' body' span' =>
      name == name' && parameters == parameters' && body.same body' && span == span'
    | _ => false
  | .array elements span => match other with
    | .array elements' span' => Expr.sameAll elements elements' && span == span'
    | _ => false
  | .hash entries span => match other with
    | .hash entries' span' => Expr.sameEntries entries entries' && span == span'
    | _ => false
  | .call callee arguments span => match other with
    | .call callee' arguments' span' =>
      callee.same callee' && Expr.sameAll arguments arguments' && span == span'
    | _ => false
  | .index collection key span => match other with
    | .index collection' key' span' =>
      collection.same collection' && key.same key' && span == span'
    | _ => false

/-- Whether the lists have the same expressions. -/
def Expr.sameAll : List Expr → List Expr → Bool
  | [], [] => true
  | expr :: rest, expr' :: rest' => expr.same expr' && Expr.sameAll rest rest'
  | _, _ => false

/-- Whether the lists have the same keys with the same values. -/
def Expr.sameEntries : List (Expr × Expr) → List (Expr × Expr) → Bool
  | [], [] => true
  | (key, value) :: rest, (key', value') :: rest' =>
    key.same key' && value.same value' && Expr.sameEntries rest rest'
  | _, _ => false

/-- Whether the two are the same statement. -/
def Stmt.same (stmt other : Stmt) : Bool :=
  match stmt with
  | .bind name value span => match other with
    | .bind name' value' span' => name == name' && value.same value' && span == span'
    | _ => false
  | .ret value span => match other with
    | .ret value' span' => value.same value' && span == span'
    | _ => false
  | .retNull span => match other with
    | .retNull span' => span == span'
    | _ => false
  | .expr value span => match other with
    | .expr value' span' => value.same value' && span == span'
    | _ => false

/-- Whether the lists have the same statements. -/
def Stmt.sameAll : List Stmt → List Stmt → Bool
  | [], [] => true
  | stmt :: rest, stmt' :: rest' => stmt.same stmt' && Stmt.sameAll rest rest'
  | _, _ => false

/-- Whether the two are the same block. -/
def Block.same : Block → Block → Bool
  | .mk statements span, .mk statements' span' =>
    Stmt.sameAll statements statements' && span == span'

end

mutual

theorem Expr.same_iff (a b : Expr) : a.same b = true ↔ a = b := by
  match a with
  | .ident .. | .integer .. | .boolean .. | .string .. => cases b <;> simp [Expr.same]
  | .unary _ operand _ | .bump _ operand _ =>
    cases b <;> simp [Expr.same, Expr.same_iff operand, and_assoc]
  | .binary _ left right _ | .logical _ left right _ | .index left right _ =>
    cases b <;> simp [Expr.same, Expr.same_iff left, Expr.same_iff right, and_assoc]
  | .ifThen condition thenBlock _ =>
    cases b <;> simp [Expr.same, Expr.same_iff condition, Block.same_iff thenBlock, and_assoc]
  | .ifElse condition thenBlock elseBlock _ =>
    cases b <;> simp [Expr.same, Expr.same_iff condition, Block.same_iff thenBlock,
      Block.same_iff elseBlock, and_assoc]
  | .function _ _ body _ => cases b <;> simp [Expr.same, Block.same_iff body, and_assoc]
  | .array elements _ => cases b <;> simp [Expr.same, Expr.sameAll_iff elements]
  | .hash entries _ => cases b <;> simp [Expr.same, Expr.sameEntries_iff entries]
  | .call callee arguments _ =>
    cases b <;> simp [Expr.same, Expr.same_iff callee, Expr.sameAll_iff arguments, and_assoc]

theorem Expr.sameAll_iff (as bs : List Expr) : Expr.sameAll as bs = true ↔ as = bs := by
  match as with
  | [] => cases bs <;> simp [Expr.sameAll]
  | expr :: rest => cases bs <;> simp [Expr.sameAll, Expr.same_iff expr, Expr.sameAll_iff rest]

theorem Expr.sameEntries_iff (as bs : List (Expr × Expr)) :
    Expr.sameEntries as bs = true ↔ as = bs := by
  match as with
  | [] => cases bs <;> simp [Expr.sameEntries]
  | (key, value) :: rest =>
    rcases bs with _ | ⟨⟨key', value'⟩, rest'⟩ <;>
      simp [Expr.sameEntries, Expr.same_iff key, Expr.same_iff value, Expr.sameEntries_iff rest]

theorem Stmt.same_iff (a b : Stmt) : a.same b = true ↔ a = b := by
  match a with
  | .bind _ value _ | .ret value _ | .expr value _ =>
    cases b <;> simp [Stmt.same, Expr.same_iff value, and_assoc]
  | .retNull _ => cases b <;> simp [Stmt.same]

theorem Stmt.sameAll_iff (as bs : List Stmt) : Stmt.sameAll as bs = true ↔ as = bs := by
  match as with
  | [] => cases bs <;> simp [Stmt.sameAll]
  | stmt :: rest => cases bs <;> simp [Stmt.sameAll, Stmt.same_iff stmt, Stmt.sameAll_iff rest]

theorem Block.same_iff (a b : Block) : a.same b = true ↔ a = b := by
  match a with
  | .mk statements _ => cases b; simp [Block.same, Stmt.sameAll_iff statements]

end

instance : DecidableEq Program := fun tree other =>
  decidable_of_iff (Stmt.sameAll tree.statements other.statements = true) (by
    rw [Stmt.sameAll_iff, Program.mk.injEq])

/-- Whether a parse has come to the tree. -/
instance Program.decidableParsed (result : Except ParseError Program) (tree : Program) :
    Decidable (result = .ok tree) :=
  decidable_of_iff (result.toOption = some tree) (by cases result <;> simp [Except.toOption])

/-- The source is parsed to the tree, and nothing is noted. -/
def Program.Parses (source : String) (maxDepth : Nat) (tree : Program) : Prop :=
  (parse source maxDepth (.opened .off)).1 = .ok tree ∧
    (parse source maxDepth (.opened .off)).2.journal = .opened .off

instance Program.decidableParses (source : String) (maxDepth : Nat) (tree : Program) :
    Decidable (Parses source maxDepth tree) := inferInstanceAs (Decidable (_ ∧ _))

/-- A session runs a source as its engine runs the tree. -/
theorem Session.run_of_parses {source : String} {maxDepth : Nat} {tree : Program}
    (h : Program.Parses source maxDepth tree) (engine : Engine) :
    (run ⟨engine, maxDepth, .opened .off⟩ source).1 =
      (match engine with
        | .vm compiler machine => runCompiled compiler machine (.opened .off) tree
        | .eval evaluator => runEvaluated evaluator (.opened .off) tree).1.map fun value =>
          if showsValue tree then some value else none := by
  obtain ⟨htree, hjournal⟩ := h
  rcases hparsed : Program.parse source maxDepth (.opened .off) with ⟨_, parser⟩
  rw [hparsed] at htree hjournal
  obtain rfl : _ = Except.ok tree := htree
  obtain hjournal : parser.journal = .opened .off := hjournal
  rw [run, hparsed]
  cases engine with
  | vm compiler machine =>
    dsimp only
    rw [hjournal]
    rcases runCompiled compiler machine (.opened .off) tree with ⟨_ | _, _, _⟩ <;> rfl
  | eval evaluator =>
    dsimp only
    rw [hjournal]
    rcases runEvaluated evaluator (.opened .off) tree with ⟨_ | _, _, _⟩ <;> rfl

end Simian
