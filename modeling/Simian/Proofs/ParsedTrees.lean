import Mathlib.Data.List.Nodup
import Simian.Proofs.SettledPrograms
import Simian.Tree.Parser

/-!
# What the parser gives

A reading rule that reads a tree reads one with some property if the rules for the
parts do. The property here is that no function literal has two parameters of one
name: the parser refuses the second one. It is carried from the rules of a level
to those of the level around it.
-/
namespace Simian

namespace Parse

variable {α β : Type} {step : Parse α} {holds : α → Prop}

/-- Whatever the rule reads has the property. -/
def Ensures (step : Parse α) (holds : α → Prop) : Prop :=
  ∀ parser value, (step parser).1 = .ok value → holds value

theorem ensures_any (step : Parse α) : step.Ensures fun _ => True := fun _ _ _ => trivial

theorem ensures_pure {value : α} (h : holds value) : Ensures (pure value) holds := by
  intro parser result hr
  cases hr
  exact h

theorem Ensures.bind {next : α → Parse β} {also : β → Prop} (h : step.Ensures holds)
    (hnext : ∀ value, holds value → (next value).Ensures also) :
    Ensures (step >>= next) also := by
  intro parser result hr
  obtain ⟨value, between, hfirst, hrest⟩ := Attempt.bind_eq_ok (Prod.ext hr rfl)
  exact hnext value (h parser value (congrArg Prod.fst hfirst)) between result
    (congrArg Prod.fst hrest)

/-- Behind a step whose result does not matter. -/
theorem ensures_bind {next : α → Parse β} {also : β → Prop}
    (hnext : ∀ value, (next value).Ensures also) : Ensures (step >>= next) also :=
  (ensures_any step).bind fun value _ => hnext value

theorem ensures_ite {condition : Prop} [Decidable condition] {other : Parse α}
    (ht : step.Ensures holds) (he : other.Ensures holds) :
    Ensures (if condition then step else other) holds := by
  split
  · exact ht
  · exact he

theorem ensures_failAtCurrent (cause : ParseError.Cause) :
    Ensures (failAtCurrent cause : Parse α) holds := by
  intro parser value h
  cases h

theorem Ensures.rule (h : step.Ensures holds) (name : String) : (rule name step).Ensures holds := by
  intro parser value hr
  unfold Parse.rule at hr
  split at hr
  · exact h _ _ hr
  · exact h _ _ hr

theorem Ensures.nested (h : step.Ensures holds) : (nested step).Ensures holds := by
  intro parser value hr
  unfold Parse.nested at hr
  split at hr
  · cases hr
  · exact h _ _ hr

end Parse

open Parse

/-! ### Lists of parts -/

theorem areDistinctExprs_iff {items : List Expr} :
    areDistinctExprs items = true ↔ ∀ item ∈ items, item.isDistinct = true := by
  induction items with
  | nil => simp [areDistinctExprs]
  | cons item rest ih => simp [areDistinctExprs, ih]

theorem areDistinctEntries_iff {pairs : List (Expr × Expr)} : areDistinctEntries pairs = true ↔
    ∀ pair ∈ pairs, pair.1.isDistinct = true ∧ pair.2.isDistinct = true := by
  induction pairs with
  | nil => simp [areDistinctEntries]
  | cons pair rest ih => simp [areDistinctEntries, ih, and_assoc]

theorem areDistinctStmts_iff {statements : List Stmt} :
    areDistinctStmts statements = true ↔ ∀ stmt ∈ statements, stmt.isDistinct = true := by
  induction statements with
  | nil => simp [areDistinctStmts]
  | cons stmt rest ih => simp [areDistinctStmts, ih]

theorem isDistinct_ifThen (condition : Expr) (block : Block) (span : Span) :
    (Expr.ifThen condition block span).isDistinct =
      (condition.isDistinct && areDistinctStmts block.statements) := by
  cases block
  rw [Expr.isDistinct, Block.statements]

theorem isDistinct_ifElse (condition : Expr) (first second : Block) (span : Span) :
    (Expr.ifElse condition first second span).isDistinct = (condition.isDistinct &&
      (areDistinctStmts first.statements && areDistinctStmts second.statements)) := by
  cases first
  cases second
  rw [Expr.isDistinct, Block.statements, Block.statements]

theorem isDistinct_function (name : Option String) (parameters : List String) (body : Block)
    (span : Span) : (Expr.function name parameters body span).isDistinct =
      (decide parameters.Nodup && areDistinctStmts body.statements) := by
  cases body
  rw [Expr.isDistinct, Block.statements]

theorem isDistinct_withSpan (expr : Expr) (span : Span) :
    (expr.withSpan span).isDistinct = expr.isDistinct := by
  cases expr <;> simp only [Expr.withSpan, Expr.isDistinct, isDistinct_ifThen, isDistinct_ifElse,
    isDistinct_function]

theorem isDistinct_named (name : String) (expr : Expr) :
    (expr.named name).isDistinct = expr.isDistinct := by
  cases expr <;> simp only [Expr.named, isDistinct_function]

/-! ### Rules for what is inside a rule -/

namespace Nested

variable {inner : Nested} {rounds : Nat}

/-- What the rules read for the inside has no function with two parameters of one name. -/
structure Distinct (inner : Nested) : Prop where
  expression : ∀ precedence, (inner.expression precedence).Ensures (·.isDistinct = true)
  block : inner.block.Ensures (areDistinctStmts ·.statements = true)

theorem moreParameters_nodup {names : List String} (h : names.Nodup) :
    (moreParameters names rounds).Ensures List.Nodup := by
  induction rounds generalizing names with
  | zero => exact ensures_pure h
  | succ rounds ih =>
    refine ensures_bind fun more => ensures_ite ?_ (ensures_pure h)
    refine ensures_bind fun _ => ensures_bind fun _ => ensures_bind fun token => ?_
    dsimp only
    split
    · exact ensures_failAtCurrent _
    next hnew =>
      refine ih (List.nodup_cons.mpr ⟨fun hm => hnew ?_, h⟩)
      rwa [List.contains_iff_mem]

theorem parameters_nodup : (parameters rounds).Ensures List.Nodup := by
  refine ensures_bind fun none => ensures_ite ?_ ?_
  · exact ensures_bind fun _ => ensures_pure List.nodup_nil
  · refine ensures_bind fun _ => ensures_bind fun first => ?_
    refine (moreParameters_nodup (List.pairwise_singleton _ _)).bind fun names h => ?_
    exact ensures_bind fun _ => ensures_pure (List.nodup_reverse.mpr h)

namespace Distinct

theorem moreItems (h : inner.Distinct) {items : List Expr}
    (hi : ∀ item ∈ items, item.isDistinct = true) :
    (inner.moreItems items rounds).Ensures (∀ item ∈ ·, item.isDistinct = true) := by
  induction rounds generalizing items with
  | zero => exact ensures_pure hi
  | succ rounds ih =>
    refine ensures_bind fun more => ensures_ite ?_ (ensures_pure hi)
    refine ensures_bind fun _ => ensures_bind fun _ => ?_
    exact (h.expression _).bind fun item hitem => ih (List.forall_mem_cons.mpr ⟨hitem, hi⟩)

theorem items (h : inner.Distinct) (closing : Token.Kind) :
    (inner.items rounds closing).Ensures (areDistinctExprs · = true) := by
  refine ensures_bind fun none => ensures_ite ?_ ?_
  · exact ensures_bind fun _ => ensures_pure rfl
  · refine ensures_bind fun _ => (h.expression _).bind fun first hfirst => ?_
    refine (h.moreItems (List.forall_mem_singleton.mpr hfirst)).bind fun items hitems => ?_
    refine ensures_bind fun _ => ensures_pure (areDistinctExprs_iff.mpr fun item hitem => ?_)
    exact hitems item (List.mem_reverse.mp hitem)

theorem entry (h : inner.Distinct) :
    inner.entry.Ensures fun pair => pair.1.isDistinct = true ∧ pair.2.isDistinct = true := by
  refine ensures_bind fun _ => (h.expression _).bind fun key hkey => ?_
  refine ensures_bind fun _ => ensures_bind fun _ => (h.expression _).bind fun value hvalue => ?_
  exact ensures_pure ⟨hkey, hvalue⟩

theorem moreEntries (h : inner.Distinct) {pairs : List (Expr × Expr)}
    (hp : ∀ pair ∈ pairs, pair.1.isDistinct = true ∧ pair.2.isDistinct = true) :
    (inner.moreEntries pairs rounds).Ensures
      (∀ pair ∈ ·, pair.1.isDistinct = true ∧ pair.2.isDistinct = true) := by
  induction rounds generalizing pairs with
  | zero => exact ensures_pure hp
  | succ rounds ih =>
    refine ensures_bind fun more => ensures_ite ?_ (ensures_pure hp)
    refine ensures_bind fun _ => h.entry.bind fun pair hpair => ?_
    exact ih (List.forall_mem_cons.mpr ⟨hpair, hp⟩)

theorem hash (h : inner.Distinct) : (inner.hash rounds).Ensures (·.isDistinct = true) := by
  refine ensures_bind fun start => ensures_bind fun none => ensures_ite
    ((ensures_pure (List.forall_mem_nil _)).bind ?rest)
    (h.entry.bind fun first hfirst =>
      (h.moreEntries (List.forall_mem_singleton.mpr hfirst)).bind ?rest)
  intro pairs hpairs
  refine ensures_bind fun _ => ensures_bind fun _ => ensures_pure ?_
  rw [Expr.isDistinct]
  exact areDistinctEntries_iff.mpr fun pair hpair => hpairs pair (List.mem_reverse.mp hpair)

theorem conditional (h : inner.Distinct) :
    inner.conditional.Ensures (·.isDistinct = true) := by
  refine ensures_bind fun start => ensures_bind fun _ => ensures_bind fun _ => ?_
  refine (h.expression _).bind fun condition hcondition => ?_
  refine ensures_bind fun _ => ensures_bind fun _ => h.block.bind fun first hfirst => ?_
  refine ensures_bind fun other => ensures_ite ?_ ?_
  · refine ensures_bind fun _ => ensures_bind fun _ => h.block.bind fun second hsecond => ?_
    refine ensures_bind fun _ => ensures_pure ?_
    rw [isDistinct_ifElse, Bool.and_eq_true, Bool.and_eq_true]
    exact ⟨hcondition, hfirst, hsecond⟩
  · refine ensures_bind fun _ => ensures_pure ?_
    rw [isDistinct_ifThen, Bool.and_eq_true]
    exact ⟨hcondition, hfirst⟩

theorem function (h : inner.Distinct) :
    (inner.function rounds).Ensures (·.isDistinct = true) := by
  refine ensures_bind fun start => ensures_bind fun named => ensures_ite
    (ensures_bind fun _ => ensures_bind fun _ => ensures_bind ?rest) (ensures_bind ?rest)
  intro name
  refine ensures_bind fun _ => (parameters_nodup.rule _).bind fun names hnames => ?_
  refine ensures_bind fun _ => h.block.bind fun body hbody => ?_
  refine ensures_bind fun _ => ensures_pure ?_
  rw [isDistinct_function, Bool.and_eq_true, decide_eq_true_iff]
  exact ⟨hnames, hbody⟩

theorem unary (h : inner.Distinct) (op : UnaryOp) :
    (inner.unary op).Ensures (·.isDistinct = true) := by
  refine ensures_bind fun start => ensures_bind fun _ => (h.expression _).bind fun operand ho => ?_
  refine ensures_pure ?_
  rwa [Expr.isDistinct]

theorem group (h : inner.Distinct) : inner.group.Ensures (·.isDistinct = true) := by
  refine ensures_bind fun start => ensures_bind fun _ => (h.expression _).bind fun expr he => ?_
  refine ensures_bind fun _ => ensures_bind fun _ => ensures_pure ?_
  rwa [isDistinct_withSpan]

theorem array (h : inner.Distinct) : (inner.array rounds).Ensures (·.isDistinct = true) := by
  refine ensures_bind fun start => (h.items _).bind fun elements he => ?_
  refine ensures_bind fun _ => ensures_pure ?_
  rwa [Expr.isDistinct]

theorem operand (h : inner.Distinct) : (inner.operand rounds).Ensures (·.isDistinct = true) := by
  refine ensures_bind fun token => ?_
  split
  · exact ensures_pure rfl
  · split
    · exact ensures_pure rfl
    · exact ensures_failAtCurrent _
  · exact ensures_pure rfl
  · exact ensures_pure rfl
  · exact ensures_pure rfl
  · exact (h.unary _).rule _
  · exact (h.unary _).rule _
  · exact h.group.rule _
  · exact h.conditional.rule _
  · exact h.function.rule _
  · exact h.array.rule _
  · exact h.hash.rule _
  · exact ensures_failAtCurrent _

theorem joined (h : inner.Distinct) {left : Expr} {join : Expr → Expr → Span → Expr}
    (hjoin : ∀ right span, right.isDistinct = true → (join left right span).isDistinct = true) :
    (inner.joined left join).Ensures (·.isDistinct = true) := by
  refine ensures_bind fun token => ensures_bind fun _ => (h.expression _).bind fun right hr => ?_
  exact ensures_pure (hjoin right _ hr)

theorem call (h : inner.Distinct) {callee : Expr} (hc : callee.isDistinct = true) :
    (inner.call rounds callee).Ensures (·.isDistinct = true) := by
  refine (h.items _).bind fun arguments ha => ensures_bind fun _ => ensures_pure ?_
  rw [Expr.isDistinct, Bool.and_eq_true]
  exact ⟨hc, ha⟩

theorem index (h : inner.Distinct) {collection : Expr} (hc : collection.isDistinct = true) :
    (inner.index collection).Ensures (·.isDistinct = true) := by
  refine ensures_bind fun _ => (h.expression _).bind fun key hk => ?_
  refine ensures_bind fun _ => ensures_bind fun _ => ensures_pure ?_
  rw [Expr.isDistinct, Bool.and_eq_true]
  exact ⟨hc, hk⟩

theorem operator? (h : inner.Distinct) {left : Expr} (hl : left.isDistinct = true)
    {kind : Token.Kind} {step : Parse Expr} (hs : inner.operator? rounds left kind = some step) :
    step.Ensures (·.isDistinct = true) := by
  unfold Nested.operator? at hs
  split at hs
  · cases hs
    refine ensures_bind fun _ => ensures_bind fun _ => ensures_pure ?_
    rwa [Expr.isDistinct]
  · cases hs
    refine ensures_bind fun _ => (h.joined fun right span hr => ?_).rule _
    rw [Expr.isDistinct, Bool.and_eq_true]
    exact ⟨hl, hr⟩
  · cases hs
    refine ensures_bind fun _ => (h.joined fun right span hr => ?_).rule _
    rw [Expr.isDistinct, Bool.and_eq_true]
    exact ⟨hl, hr⟩
  · split at hs
    · cases hs
      exact ensures_bind fun _ => (h.call hl).rule _
    · cases hs
      exact ensures_bind fun _ => (h.index hl).rule _
    · cases hs

theorem operators (h : inner.Distinct) {budget : Nat} {precedence : Precedence} {left : Expr}
    (hl : left.isDistinct = true) :
    (inner.operators budget precedence left rounds).Ensures (·.isDistinct = true) := by
  induction rounds generalizing left with
  | zero => exact ensures_pure hl
  | succ rounds ih =>
    refine ensures_bind fun parser => ensures_ite ?_ (ensures_pure hl)
    split
    next step hs => exact (h.operator? hl hs).bind fun later hlater => ih hlater
    · exact ensures_pure hl

theorem expressionRule (h : inner.Distinct) (precedence : Precedence) :
    (inner.expressionRule rounds precedence).Ensures (·.isDistinct = true) :=
  h.operand.bind fun _ hl => h.operators hl

theorem binding (h : inner.Distinct) : inner.binding.Ensures (·.isDistinct = true) := by
  refine ensures_bind fun start => ensures_bind fun _ => ensures_bind fun name => ?_
  refine ensures_bind fun _ => ensures_bind fun _ => (h.expression _).bind fun value hv => ?_
  refine ensures_bind fun _ => ensures_pure ?_
  rwa [Stmt.isDistinct, isDistinct_named]

theorem giving (h : inner.Distinct) : inner.giving.Ensures (·.isDistinct = true) := by
  refine ensures_bind fun start => ensures_bind fun parser => ensures_ite ?_ ?_
  · refine ensures_bind fun _ => ensures_pure ?_
    rw [Stmt.isDistinct]
  · refine ensures_bind fun _ => (h.expression _).bind fun value hv => ?_
    refine ensures_bind fun _ => ensures_pure ?_
    rwa [Stmt.isDistinct]

theorem evaluation (h : inner.Distinct) : inner.evaluation.Ensures (·.isDistinct = true) := by
  refine (h.expression _).bind fun value hv => ensures_bind fun _ => ensures_pure ?_
  rwa [Stmt.isDistinct]

theorem statement (h : inner.Distinct) : inner.statement.Ensures (·.isDistinct = true) := by
  refine Ensures.rule (ensures_bind fun token => ?_) _
  split
  · exact h.binding.rule _
  · exact h.giving.rule _
  · exact h.evaluation.rule _

theorem blockStatements (h : inner.Distinct) {statements : List Stmt}
    (hs : ∀ stmt ∈ statements, stmt.isDistinct = true) :
    (inner.blockStatements statements rounds).Ensures (∀ stmt ∈ ·, stmt.isDistinct = true) := by
  induction rounds generalizing statements with
  | zero => exact ensures_pure hs
  | succ rounds ih =>
    refine ensures_bind fun token => ?_
    split
    · exact ensures_pure hs
    · exact ensures_pure hs
    · exact ensures_bind fun _ => ih hs
    · refine h.statement.bind fun stmt hstmt => ensures_bind fun _ => ?_
      exact ih (List.forall_mem_cons.mpr ⟨hstmt, hs⟩)

theorem blockRule (h : inner.Distinct) :
    (inner.blockRule rounds).Ensures (areDistinctStmts ·.statements = true) := by
  refine ensures_bind fun start => ensures_bind fun _ => ensures_bind fun _ => ?_
  refine (h.blockStatements (List.forall_mem_nil _)).bind fun statements hs => ?_
  refine ensures_bind fun atEnd => ensures_ite (ensures_failAtCurrent _) ?_
  refine ensures_bind fun _ => ensures_pure (areDistinctStmts_iff.mpr fun stmt hstmt => ?_)
  exact hs stmt (List.mem_reverse.mp hstmt)

end Distinct

/-- The rules with some levels left are made from those with one level less. -/
theorem distinct_at (budget levels : Nat) :
    Distinct ⟨expressionAt budget levels, blockAt budget levels⟩ := by
  induction levels with
  | zero =>
    refine ⟨fun _ parser value h => ?_, fun parser value h => ?_⟩
    · cases h
    · cases h
  | succ levels ih =>
    refine ⟨fun precedence => ?_, ?_⟩
    · exact ((ih.expressionRule precedence).rule _).nested
    · exact (ih.blockRule.rule _).nested

end Nested

/-! ### Programs -/

theorem Parser.statements_distinct {inner : Nested} (h : inner.Distinct) {read : List Stmt}
    {rounds : Nat} (hs : ∀ stmt ∈ read, stmt.isDistinct = true) :
    (statements inner read rounds).Ensures (∀ stmt ∈ ·, stmt.isDistinct = true) := by
  induction rounds generalizing read with
  | zero => exact ensures_pure hs
  | succ rounds ih =>
    refine ensures_bind fun token => ?_
    split
    · exact ensures_pure hs
    · exact ensures_bind fun _ => ih hs
    · refine h.statement.bind fun stmt hstmt => ensures_bind fun _ => ?_
      exact ih (List.forall_mem_cons.mpr ⟨hstmt, hs⟩)

/-- No function of a program that has been parsed has two parameters of one name. -/
theorem Program.areDistinctStmts_of_parse {source : String} {maxDepth : Nat} {journal : Journal}
    {tree : Program} (h : (parse source maxDepth journal).1 = .ok tree) :
    areDistinctStmts tree.statements = true := by
  have hprogram : Parser.parseProgram.Ensures (areDistinctStmts ·.statements = true) := by
    refine ensures_bind fun _ => ensures_bind fun parser => ?_
    refine (Parser.statements_distinct (Nested.distinct_at _ _) (List.forall_mem_nil _)).bind ?_
    intro read hread _ _ hp
    cases hp
    exact areDistinctStmts_iff.mpr fun stmt hstmt => hread stmt (List.mem_reverse.mp hstmt)
  exact hprogram _ _ h

end Simian
