import Simian.Tree.Parser

/-!
# Properties that all reading rules have

The rules of the grammar are put together from a few moves: looking at the window, moving on,
insisting on a kind, failing at the current token, and reading one level deeper. A property of
rules that these moves have, and that sequencing keeps (`Parse.Upheld`), is a property of every
rule, by induction on the levels left. The property may speak of the parsers that a rule starts
from, so what a rule has seen of the window is known where it fails.
-/
namespace Simian

/-- The error is about this token. Faults of the lexer are about none that a rule can see. -/
def ParseError.Cause.Concerns (cause : ParseError.Cause) (token : Token) : Prop :=
  match cause with
  | .unexpectedToken expected found => token.kind = found ∧ found ≠ expected
  | .noExpression found => token.kind = found
  | .invalidInteger literal => token.kind = .int ∧ token.literal = literal
  | .unterminatedBlock => token.kind = .eof
  | .nestingTooDeep _ => True
  | .duplicateParameter name => token.literal = name
  | .lexical _ => False

namespace Parse

/-- Where a step ends that started from such a parser and gave the value. -/
def Reached {α : Type} (start : Parser → Prop) (step : Parse α) (value : α) (parser : Parser) :
    Prop :=
  ∃ before, start before ∧ step before = (.ok value, parser)

/-- A property of rules that start from such parsers, which all the moves have and which sequencing
keeps. -/
structure Upheld (holds : (α : Type) → (Parser → Prop) → Parse α → Prop) : Prop where
  weaken {α : Type} {start also : Parser → Prop} {step : Parse α} :
    (∀ parser, start parser → also parser) → holds α also step → holds α start step
  bind {α β : Type} {start : Parser → Prop} {step : Parse α} {next : α → Parse β} :
    holds α start step → (∀ value, holds β (Reached start step value) (next value)) →
    holds β start (step >>= next)
  look {α : Type} {start : Parser → Prop} {step : Parse α} :
    (∀ parser, ∃ value journal, step parser = (.ok value, { parser with journal })) →
    holds α start step
  failAtCurrent {α : Type} {start : Parser → Prop} {cause : ParseError.Cause} :
    (∀ parser, start parser → cause.Concerns parser.current) →
    holds α start (failAtCurrent cause)
  tooDeep {α : Type} {start : Parser → Prop} :
    holds α start fun parser => Parse.failAtCurrent (.nestingTooDeep parser.maxDepth) parser
  raiseFault {start : Parser → Prop} : holds Unit start raiseFault
  advance {start : Parser → Prop} : holds Unit start advance
  expectPeek {start : Parser → Prop} (kind : Token.Kind) : holds Unit start (expectPeek kind)
  expectCurrent {start : Parser → Prop} (kind : Token.Kind) :
    holds Unit start (expectCurrent kind)
  rule {α : Type} {start : Parser → Prop} {step : Parse α} (name : String) :
    holds α (fun _ => True) step → holds α start (rule name step)
  nested {α : Type} {start : Parser → Prop} {step : Parse α} :
    holds α (fun _ => True) step → holds α start (nested step)

namespace Upheld

variable {holds : (α : Type) → (Parser → Prop) → Parse α → Prop} (h : Upheld holds)
variable {α β : Type} {start : Parser → Prop} {step : Parse α} {next : α → Parse β}
include h

theorem always (hstep : holds α (fun _ => True) step) : holds α start step :=
  h.weaken (fun _ _ => trivial) hstep

theorem pure (value : α) : holds α start (pure value) :=
  h.look fun parser => ⟨value, parser.journal, rfl⟩

/-- Where it does not matter what the first step saw. -/
theorem andThen (hstep : holds α start step)
    (hnext : ∀ value, holds β (fun _ => True) (next value)) : holds β start (step >>= next) :=
  h.bind hstep fun value => h.always (hnext value)

/-- A look at the window, which is remembered. -/
theorem seeing {seen : Parser → α} (hstep : ∀ parser, step parser = (.ok (seen parser), parser))
    (hnext : ∀ value, holds β (fun parser => start parser ∧ seen parser = value) (next value)) :
    holds β start (step >>= next) := by
  refine h.bind (h.look fun parser => ⟨_, _, hstep parser⟩) fun value => h.weaken ?_ (hnext value)
  rintro parser ⟨before, hstart, hbefore⟩
  obtain ⟨hvalue, rfl⟩ := Prod.mk.inj ((hstep before).symm.trans hbefore)
  exact ⟨hstart, Except.ok.inj hvalue⟩

theorem current {next : Token → Parse β}
    (hnext : ∀ token, holds β (fun parser => parser.current = token) (next token)) :
    holds β start (current >>= next) :=
  h.seeing (fun _ => rfl) fun token => h.weaken (fun _ hp => hp.2) (hnext token)

theorem looking (seen : Parser → α) (hstep : ∀ parser, step parser = (.ok (seen parser), parser))
    (hnext : ∀ value, holds β (fun _ => True) (next value)) : holds β start (step >>= next) :=
  h.seeing hstep fun value => h.always (hnext value)

theorem peekIs {kind : Token.Kind} {next : Bool → Parse β}
    (hnext : ∀ value, holds β (fun _ => True) (next value)) :
    holds β start (peekIs kind >>= next) := h.looking _ (fun _ => rfl) hnext

omit h in
theorem ite {condition : Prop} [Decidable condition] {other : Parse α}
    (hthen : condition → holds α start step) (helse : ¬condition → holds α start other) :
    holds α start (if condition then step else other) := by
  split
  next hc => exact hthen hc
  next hc => exact helse hc

end Upheld

end Parse

open Parse

/-! ### The rules of a level -/

namespace Nested

variable {holds : (α : Type) → (Parser → Prop) → Parse α → Prop}

/-- The rules for what stands inside have the property, from wherever they start. -/
structure Upholds (inner : Nested) (holds : (α : Type) → (Parser → Prop) → Parse α → Prop) :
    Prop where
  expression : ∀ precedence, holds Expr (fun _ => True) (inner.expression precedence)
  block : holds Block (fun _ => True) inner.block

section
variable (h : Upheld holds) {start : Parser → Prop} {rounds : Nat}
include h

theorem upheld_moreParameters (names : List String) :
    holds _ start (moreParameters names rounds) := by
  induction rounds generalizing names start with
  | zero => exact h.pure _
  | succ rounds ih =>
    refine h.peekIs fun more => Upheld.ite (fun _ => ?_) fun _ => h.pure _
    refine h.andThen h.advance fun _ => h.andThen (h.expectPeek _) fun _ => ?_
    refine h.current fun token => ?_
    dsimp only
    split
    · exact h.failAtCurrent fun parser hp => congrArg Token.literal hp
    · exact ih _

theorem upheld_parameters : holds _ start (parameters rounds) := by
  refine h.peekIs fun none => Upheld.ite (fun _ => ?_) fun _ => ?_
  · exact h.andThen h.advance fun _ => h.pure _
  · refine h.andThen (h.expectPeek _) fun _ => h.current fun first => ?_
    refine h.andThen (upheld_moreParameters h _) fun names => ?_
    exact h.andThen (h.expectPeek _) fun _ => h.pure _

theorem upheld_skipSemicolon : holds _ start skipSemicolon :=
  h.peekIs fun _ => Upheld.ite (fun _ => h.advance) fun _ => h.pure _

end

namespace Upholds

variable {inner : Nested} (hi : inner.Upholds holds) (h : Upheld holds)
variable {start : Parser → Prop} {rounds : Nat}
include hi h

/-- Reading an expression and going on. -/
theorem thenExpression {β : Type} {precedence : Precedence} {next : Expr → Parse β}
    (hnext : ∀ expr, holds β (fun _ => True) (next expr)) :
    holds β start (inner.expression precedence >>= next) :=
  h.andThen (h.always (hi.expression precedence)) hnext

theorem thenBlock {β : Type} {next : Block → Parse β}
    (hnext : ∀ block, holds β (fun _ => True) (next block)) :
    holds β start (inner.block >>= next) :=
  h.andThen (h.always hi.block) hnext

theorem moreItems (items : List Expr) : holds _ start (inner.moreItems items rounds) := by
  induction rounds generalizing items start with
  | zero => exact h.pure _
  | succ rounds ih =>
    refine h.peekIs fun more => Upheld.ite (fun _ => ?_) fun _ => h.pure _
    refine h.andThen h.advance fun _ => h.andThen h.advance fun _ => ?_
    exact hi.thenExpression h fun item => ih _

theorem items (closing : Token.Kind) : holds _ start (inner.items rounds closing) := by
  refine h.peekIs fun none => Upheld.ite (fun _ => ?_) fun _ => ?_
  · exact h.andThen h.advance fun _ => h.pure _
  · refine h.andThen h.advance fun _ => hi.thenExpression h fun first => ?_
    refine h.andThen (hi.moreItems h _) fun items => ?_
    exact h.andThen (h.expectPeek _) fun _ => h.pure _

theorem entry : holds _ start inner.entry := by
  refine h.andThen h.advance fun _ => hi.thenExpression h fun key => ?_
  refine h.andThen (h.expectPeek _) fun _ => h.andThen h.advance fun _ => ?_
  exact hi.thenExpression h fun value => h.pure _

theorem moreEntries (entries : List (Expr × Expr)) :
    holds _ start (inner.moreEntries entries rounds) := by
  induction rounds generalizing entries start with
  | zero => exact h.pure _
  | succ rounds ih =>
    refine h.peekIs fun more => Upheld.ite (fun _ => ?_) fun _ => h.pure _
    exact h.andThen h.advance fun _ => h.andThen (hi.entry h) fun next => ih _

theorem hash : holds _ start (inner.hash rounds) := by
  refine h.current fun token => h.peekIs fun none => Upheld.ite (fun _ => ?_) fun _ => ?_
  · refine h.andThen (h.pure _) fun entries => h.andThen (h.expectPeek _) fun _ => ?_
    exact h.current fun _ => h.pure _
  · refine h.andThen (hi.entry h) fun first => h.andThen (hi.moreEntries h _) fun entries => ?_
    exact h.andThen (h.expectPeek _) fun _ => h.current fun _ => h.pure _

theorem conditional : holds _ start inner.conditional := by
  refine h.current fun token => h.andThen (h.expectPeek _) fun _ => h.andThen h.advance fun _ => ?_
  refine hi.thenExpression h fun condition => h.andThen (h.expectPeek _) fun _ => ?_
  refine h.andThen (h.expectPeek _) fun _ => hi.thenBlock h fun thenBlock => ?_
  refine h.peekIs fun other => Upheld.ite (fun _ => ?_) fun _ => ?_
  · refine h.andThen h.advance fun _ => h.andThen (h.expectPeek _) fun _ => ?_
    exact hi.thenBlock h fun elseBlock => h.current fun _ => h.pure _
  · exact h.current fun _ => h.pure _

theorem function : holds _ start (inner.function rounds) := by
  have hrest : ∀ (span : Span) (name : Option String), holds Expr (fun _ => True) (do
      expectPeek .leftParen
      let names ← Parse.rule "Parameters" (parameters rounds)
      expectPeek .leftBrace
      let body ← inner.block
      pure (.function name names body (span.merge (← Parse.current).span))) := by
    intro span name
    refine h.andThen (h.expectPeek _) fun _ => ?_
    refine h.andThen (h.rule _ (upheld_parameters h)) fun names => ?_
    refine h.andThen (h.expectPeek _) fun _ => hi.thenBlock h fun body => ?_
    exact h.current fun _ => h.pure _
  refine h.current fun token => h.peekIs fun named => Upheld.ite (fun _ => ?_) fun _ => ?_
  · refine h.andThen h.advance fun _ => h.current fun name => ?_
    exact h.andThen (h.pure _) fun name => hrest _ name
  · exact h.andThen (h.pure _) fun name => hrest _ name

theorem unary (op : UnaryOp) : holds _ start (inner.unary op) := by
  refine h.current fun token => h.andThen h.advance fun _ => ?_
  exact hi.thenExpression h fun operand => h.pure _

theorem group : holds _ start inner.group := by
  refine h.current fun token => h.andThen h.advance fun _ => hi.thenExpression h fun expr => ?_
  exact h.andThen (h.expectPeek _) fun _ => h.current fun _ => h.pure _

theorem array : holds _ start (inner.array rounds) := by
  refine h.current fun token => h.andThen (hi.items h _) fun elements => ?_
  exact h.current fun _ => h.pure _

theorem operand : holds _ start (inner.operand rounds) := by
  refine h.current fun token => ?_
  split
  · exact h.pure _
  next hint =>
    split
    · exact h.pure _
    · exact h.failAtCurrent fun parser hp =>
        ⟨(congrArg Token.kind hp).trans hint, congrArg Token.literal hp⟩
  · exact h.pure _
  · exact h.pure _
  · exact h.pure _
  · exact h.rule _ (hi.unary h _)
  · exact h.rule _ (hi.unary h _)
  · exact h.rule _ (hi.group h)
  · exact h.rule _ (hi.conditional h)
  · exact h.rule _ (hi.function h)
  · exact h.rule _ (hi.array h)
  · exact h.rule _ (hi.hash h)
  · exact h.failAtCurrent fun parser hp => congrArg Token.kind hp

theorem joined (left : Expr) (join : Expr → Expr → Span → Expr) :
    holds _ start (inner.joined left join) := by
  refine h.current fun token => h.andThen h.advance fun _ => ?_
  exact hi.thenExpression h fun right => h.pure _

theorem call (callee : Expr) : holds _ start (inner.call rounds callee) := by
  refine h.andThen (hi.items h _) fun arguments => ?_
  exact h.current fun _ => h.pure _

theorem index (collection : Expr) : holds _ start (inner.index collection) := by
  refine h.andThen h.advance fun _ => hi.thenExpression h fun key => ?_
  exact h.andThen (h.expectPeek _) fun _ => h.current fun _ => h.pure _

theorem operator? {left : Expr} {kind : Token.Kind} {step : Parse Expr}
    (hs : inner.operator? rounds left kind = some step) : holds _ start step := by
  unfold Nested.operator? at hs
  split at hs
  · cases hs
    exact h.andThen h.advance fun _ => h.current fun _ => h.pure _
  · cases hs
    exact h.andThen h.advance fun _ => h.rule _ (hi.joined h _ _)
  · cases hs
    exact h.andThen h.advance fun _ => h.rule _ (hi.joined h _ _)
  · split at hs
    · cases hs
      exact h.andThen h.advance fun _ => h.rule _ (hi.call h _)
    · cases hs
      exact h.andThen h.advance fun _ => h.rule _ (hi.index h _)
    · cases hs

theorem operators {budget : Nat} {precedence : Precedence} (left : Expr) :
    holds _ start (inner.operators budget precedence left rounds) := by
  induction rounds generalizing left start with
  | zero => exact h.pure _
  | succ rounds ih =>
    refine h.looking _ (fun _ => rfl) fun parser => Upheld.ite (fun _ => ?_) fun _ => h.pure _
    split
    next step hs => exact h.andThen (hi.operator? h hs) fun left => ih _
    · exact h.pure _

theorem expressionRule (precedence : Precedence) :
    holds _ start (inner.expressionRule rounds precedence) :=
  h.andThen (hi.operand h) fun left => hi.operators h left

theorem binding : holds _ start inner.binding := by
  refine h.current fun token => h.andThen (h.expectPeek _) fun _ => h.current fun name => ?_
  refine h.andThen (h.expectPeek _) fun _ => h.andThen h.advance fun _ => ?_
  refine hi.thenExpression h fun value => h.andThen (upheld_skipSemicolon h) fun _ => ?_
  exact h.pure _

theorem giving : holds _ start inner.giving := by
  refine h.current fun token => h.looking _ (fun _ => rfl) fun parser => ?_
  refine Upheld.ite (fun _ => ?_) fun _ => ?_
  · exact h.andThen (upheld_skipSemicolon h) fun _ => h.pure _
  · refine h.andThen h.advance fun _ => hi.thenExpression h fun value => ?_
    exact h.andThen (upheld_skipSemicolon h) fun _ => h.pure _

theorem evaluation : holds _ start inner.evaluation :=
  hi.thenExpression h fun _ => h.andThen (upheld_skipSemicolon h) fun _ => h.pure _

theorem statement : holds _ start inner.statement := by
  refine h.rule _ (h.current fun token => ?_)
  split
  · exact h.rule _ (hi.binding h)
  · exact h.rule _ (hi.giving h)
  · exact h.rule _ (hi.evaluation h)

theorem blockStatements (statements : List Stmt) :
    holds _ start (inner.blockStatements statements rounds) := by
  induction rounds generalizing statements start with
  | zero => exact h.pure _
  | succ rounds ih =>
    refine h.current fun token => ?_
    split
    · exact h.pure _
    · exact h.pure _
    · exact h.andThen h.advance fun _ => ih _
    · exact h.andThen (hi.statement h) fun stmt => h.andThen h.advance fun _ => ih _

theorem blockRule : holds _ start (inner.blockRule rounds) := by
  refine h.current fun token => h.andThen (h.expectCurrent _) fun _ => ?_
  refine h.andThen h.advance fun _ => h.andThen (hi.blockStatements h _) fun statements => ?_
  refine h.seeing (fun _ => rfl) fun atEnd => Upheld.ite (fun hend => ?_) fun _ => ?_
  · exact h.failAtCurrent fun parser hp => beq_iff_eq.mp (hp.2.trans hend)
  · exact h.current fun _ => h.pure _

/-- The loop over the statements of a program. -/
theorem statements (read : List Stmt) : holds _ start (Parser.statements inner read rounds) := by
  induction rounds generalizing read start with
  | zero => exact h.pure _
  | succ rounds ih =>
    refine h.current fun token => ?_
    split
    · exact h.pure _
    · exact h.andThen h.advance fun _ => ih _
    · exact h.andThen (hi.statement h) fun stmt => h.andThen h.advance fun _ => ih _

end Upholds

/-- The rules with some levels left are made from those with one level less. -/
theorem upholds_at (h : Upheld holds) (budget levels : Nat) :
    Upholds ⟨expressionAt budget levels, blockAt budget levels⟩ holds := by
  induction levels with
  | zero => exact ⟨fun _ => h.tooDeep, h.tooDeep⟩
  | succ levels ih =>
    constructor
    · exact fun precedence => h.nested (h.rule _ (ih.expressionRule h precedence))
    · exact h.nested (h.rule _ (ih.blockRule h))

end Nested

/-- The rule for a whole source has the property too. -/
theorem Parser.upheld_parseProgram {holds : (α : Type) → (Parser → Prop) → Parse α → Prop}
    (h : Upheld holds) {start : Parser → Prop} : holds _ start parseProgram := by
  refine h.andThen h.raiseFault fun _ => h.looking _ (fun _ => rfl) fun parser => ?_
  refine h.andThen ((Nested.upholds_at h _ _).statements h _) fun read => ?_
  exact h.look fun parser => ⟨_, _, rfl⟩

end Simian
