import Simian.Proofs.ParserSpending

/-!
# Every call of the parser returns

Given time enough, a timed parse ends as the parser does, on any source and in whatever state
earlier calls have left the parser (`Timed.returns_of_reached`). Each round of a loop takes a token
that is left, so that the loops stop, and each nested rule goes in one level, up to the limit.
-/
namespace Simian

namespace Timed

variable {α : Type} {parser : Parser}

/-! ### The rules of a level -/

/-- The rules for what stands inside end where so many tokens and levels are left, behind a token
of the text. -/
structure Inner.Timely (timed : Nat → Inner) (inner : Nested) (budget levels : Nat) : Prop where
  expression : ∀ precedence parser, parser.Within budget levels →
    Ends (fun clock => (timed clock).expression precedence) (inner.expression precedence)
      (fun _ after => after.InText) parser
  block : ∀ parser, parser.Within budget levels →
    Ends (fun clock => (timed clock).block) inner.block (fun _ after => after.InText) parser

namespace Inner

variable {budget rounds levels : Nat}

theorem ends_moreParameters (names : List String) (used : Nat) (hw : parser.Within rounds levels)
    (hin : parser.InText) :
    Ends (fun clock => moreParameters names (clock - used)) (Nested.moreParameters names rounds)
      (fun _ after => after.InText) parser := by
  -- on the tokens left, of which each round takes one
  induction rounds generalizing names used parser with
  | zero => exact absurd hw.current_eof hin
  | succ rounds ih =>
    refine .round (fun _ => moreParameters names) ?_
    refine .peekIs (.ite (fun _ => ?_) fun _ => .pure hw.regular hin)
    refine .onward hw hin fun comma hw _ => ?_
    refine .bind hw (.expectPeek .ident hw.regular rfl) fun _ name hw hkind => .current ?_
    refine .ite (fun _ => .failAtCurrent hw.regular) fun _ => ?_
    exact ih _ _ hw (.of_kind hkind rfl)

theorem ends_parameters (hw : parser.Within budget levels) :
    Ends parameters (Nested.parameters budget) (fun _ after => after.InText) parser := by
  refine .peekIs (.ite (fun hclose => ?_) fun _ => ?_)
  · refine .bind hw (.advance_of_peek hw.regular hclose rfl) fun _ last hw hkind => ?_
    exact .pure hw.regular (.of_kind hkind rfl)
  · refine .bind hw (.expectPeek .ident hw.regular rfl) fun _ first hw hkind => .current ?_
    refine .bind hw (ends_moreParameters _ 0 hw (.of_kind hkind rfl)) fun names last hw _ => ?_
    refine .bind hw (.expectPeek .rightParen hw.regular rfl) fun _ last hw hkind => ?_
    exact .pure hw.regular (.of_kind hkind rfl)

theorem ends_skipSemicolon (hw : parser.Within budget levels) (hin : parser.InText) :
    Ends (fun _ => skipSemicolon) Nested.skipSemicolon (fun _ after => after.InText) parser := by
  refine .peekIs (.ite (fun hsemicolon => ?_) fun _ => .pure hw.regular hin)
  have hends := Ends.advance_of_peek hw.regular hsemicolon rfl
  exact ⟨hends.ends, fun value hv => .of_kind (hends.good value hv) rfl⟩

namespace Timely

variable {timed : Nat → Inner} {inner : Nested} (hi : Timely timed inner budget levels)
include hi

theorem moreItems (items : List Expr) (used : Nat) (hle : rounds ≤ budget)
    (hw : parser.Within rounds levels) (hin : parser.InText) :
    Ends (fun clock => (timed clock).moreItems items (clock - used)) (inner.moreItems items rounds)
      (fun _ after => after.InText) parser := by
  induction rounds generalizing items used parser with
  | zero => exact absurd hw.current_eof hin
  | succ rounds ih =>
    refine .round (fun clock => (timed clock).moreItems items) ?_
    refine .peekIs (.ite (fun hcomma => ?_) fun _ => .pure hw.regular hin)
    refine .onward hw hin fun comma hw hcurrent => ?_
    have hle := Nat.le_of_succ_le hle
    refine .bind hw (.advance hw.regular (.of_peek hcomma hcurrent rfl)) fun _ first hw _ => ?_
    refine .bind hw (hi.expression .lowest _ (hw.mono hle)) fun item last hw hin => ?_
    exact ih _ _ hle hw hin

theorem items {closing : Token.Kind} (hclosing : (closing != .eof) = true)
    (hw : parser.Within budget levels) (hin : parser.InText) :
    Ends (fun clock => (timed clock).items clock closing) (inner.items budget closing)
      (fun _ after => after.InText) parser := by
  refine .peekIs (.ite (fun hclose => ?_) fun _ => ?_)
  · refine .bind hw (.advance_of_peek hw.regular hclose hclosing) fun _ last hw hkind => ?_
    exact .pure hw.regular (.of_kind hkind hclosing)
  · refine .bind hw (.advance hw.regular hin) fun _ first hw _ => ?_
    refine .bind hw (hi.expression .lowest _ hw) fun item last hw hin => ?_
    refine .bind hw (hi.moreItems _ 0 (Nat.le_refl _) hw hin) fun items last hw _ => ?_
    refine .bind hw (.expectPeek closing hw.regular hclosing) fun _ last hw hkind => ?_
    exact .pure hw.regular (.of_kind hkind hclosing)

theorem entry (hle : rounds ≤ budget) (hw : parser.Within rounds levels) (hin : parser.InText) :
    Ends (fun clock => (timed clock).entry) inner.entry (fun _ after => after.InText) parser := by
  refine .bind hw (.advance hw.regular hin) fun _ first hw _ => ?_
  refine .bind hw (hi.expression .lowest _ (hw.mono hle)) fun key last hw _ => ?_
  refine .bind hw (.expectPeek .colon hw.regular rfl) fun _ colon hw hkind => ?_
  refine .bind hw (.advance hw.regular (.of_kind hkind rfl)) fun _ first hw _ => ?_
  refine .bind hw (hi.expression .lowest _ (hw.mono hle)) fun value last hw hin => ?_
  exact .pure hw.regular hin

theorem moreEntries (entries : List (Expr × Expr)) (used : Nat) (hle : rounds ≤ budget)
    (hw : parser.Within rounds levels) (hin : parser.InText) :
    Ends (fun clock => (timed clock).moreEntries entries (clock - used))
      (inner.moreEntries entries rounds) (fun _ after => after.InText) parser := by
  induction rounds generalizing entries used parser with
  | zero => exact absurd hw.current_eof hin
  | succ rounds ih =>
    refine .round (fun clock => (timed clock).moreEntries entries) ?_
    refine .peekIs (.ite (fun hcomma => ?_) fun _ => .pure hw.regular hin)
    refine .onward hw hin fun comma hw hcurrent => ?_
    have hle := Nat.le_of_succ_le hle
    refine .bind hw (hi.entry hle hw (.of_peek hcomma hcurrent rfl)) fun next last hw hin => ?_
    exact ih _ _ hle hw hin

theorem hash (hw : parser.Within budget levels) (hin : parser.InText) :
    Ends (fun clock => (timed clock).hash clock) (inner.hash budget) (fun _ after => after.InText)
      parser := by
  have hclose : ∀ (start : Span) (entries : List (Expr × Expr)) (last : Parser),
      last.Within budget levels → Ends (fun _ => (do
        expectPeek .rightBrace
        pure (.hash entries.reverse (start.merge (← current).span)) : Timed Expr)) (do
        Parse.expectPeek .rightBrace
        pure (.hash entries.reverse (start.merge (← Parse.current).span)))
        (fun _ after => after.InText) last := by
    intro start entries last hw
    refine .bind hw (.expectPeek .rightBrace hw.regular rfl) fun _ last hw hkind => ?_
    exact .current (.pure hw.regular (.of_kind hkind rfl))
  refine .current (.peekIs (.ite (fun _ => ?_) fun _ => ?_))
  · exact .seeing rfl (hclose _ _ _ hw)
  · refine .bind hw (hi.entry (Nat.le_refl _) hw hin) fun first last hw hin => ?_
    refine .bind hw (hi.moreEntries _ 0 (Nat.le_refl _) hw hin) fun entries last hw _ => ?_
    exact hclose _ _ _ hw

theorem conditional (hw : parser.Within budget levels) :
    Ends (fun clock => (timed clock).conditional) inner.conditional (fun _ after => after.InText)
      parser := by
  refine .current (.bind hw (.expectPeek .leftParen hw.regular rfl) fun _ paren hw hkind => ?_)
  refine .bind hw (.advance hw.regular (.of_kind hkind rfl)) fun _ first hw _ => ?_
  refine .bind hw (hi.expression .lowest _ hw) fun condition last hw _ => ?_
  refine .bind hw (.expectPeek .rightParen hw.regular rfl) fun _ paren hw _ => ?_
  refine .bind hw (.expectPeek .leftBrace hw.regular rfl) fun _ brace hw _ => ?_
  refine .bind hw (hi.block _ hw) fun thenBlock last hw hin => ?_
  refine .peekIs (.ite (fun helse => ?_) fun _ => .current (.pure hw.regular hin))
  refine .bind hw (.advance_of_peek hw.regular helse rfl) fun _ word hw _ => ?_
  refine .bind hw (.expectPeek .leftBrace hw.regular rfl) fun _ brace hw _ => ?_
  refine .bind hw (hi.block _ hw) fun elseBlock last hw hin => ?_
  exact .current (.pure hw.regular hin)

theorem unary (op : UnaryOp) (hw : parser.Within budget levels) (hin : parser.InText) :
    Ends (fun clock => (timed clock).unary op) (inner.unary op) (fun _ after => after.InText)
      parser := by
  refine .current (.bind hw (.advance hw.regular hin) fun _ first hw _ => ?_)
  refine .bind hw (hi.expression .unary _ hw) fun operand last hw hin => ?_
  exact .pure hw.regular hin

theorem group (hw : parser.Within budget levels) (hin : parser.InText) :
    Ends (fun clock => (timed clock).group) inner.group (fun _ after => after.InText) parser := by
  refine .current (.bind hw (.advance hw.regular hin) fun _ first hw _ => ?_)
  refine .bind hw (hi.expression .lowest _ hw) fun expr last hw _ => ?_
  refine .bind hw (.expectPeek .rightParen hw.regular rfl) fun _ paren hw hkind => ?_
  exact .current (.pure hw.regular (.of_kind hkind rfl))

theorem array (hw : parser.Within budget levels) (hin : parser.InText) :
    Ends (fun clock => (timed clock).array clock) (inner.array budget)
      (fun _ after => after.InText) parser := by
  refine .current (.bind hw (hi.items rfl hw hin) fun elements last hw hin => ?_)
  exact .current (.pure hw.regular hin)

theorem joined (left : Expr) (join : Expr → Expr → Span → Expr)
    (hw : parser.Within budget levels) (hin : parser.InText) :
    Ends (fun clock => (timed clock).joined left join) (inner.joined left join)
      (fun _ after => after.InText) parser := by
  refine .current (.bind hw (.advance hw.regular hin) fun _ first hw _ => ?_)
  refine .bind hw (hi.expression _ _ hw) fun right last hw hin => ?_
  exact .pure hw.regular hin

theorem call (callee : Expr) (hw : parser.Within budget levels) (hin : parser.InText) :
    Ends (fun clock => (timed clock).call clock callee) (inner.call budget callee)
      (fun _ after => after.InText) parser := by
  refine .bind hw (hi.items rfl hw hin) fun arguments last hw hin => ?_
  exact .current (.pure hw.regular hin)

theorem index (collection : Expr) (hw : parser.Within budget levels) (hin : parser.InText) :
    Ends (fun clock => (timed clock).index collection) (inner.index collection)
      (fun _ after => after.InText) parser := by
  refine .bind hw (.advance hw.regular hin) fun _ first hw _ => ?_
  refine .bind hw (hi.expression .lowest _ hw) fun key last hw _ => ?_
  refine .bind hw (.expectPeek .rightBracket hw.regular rfl) fun _ bracket hw hkind => ?_
  exact .current (.pure hw.regular (.of_kind hkind rfl))

theorem function (hw : parser.Within budget levels) :
    Ends (fun clock => (timed clock).function clock) (inner.function budget)
      (fun _ after => after.InText) parser := by
  have hrest : ∀ (start : Span) (name : Option String) (last : Parser),
      last.Within budget levels → Ends (fun clock => (do
        expectPeek .leftParen
        let names ← Timed.rule "Parameters" (parameters clock)
        expectPeek .leftBrace
        let body ← (timed clock).block
        pure (.function name names body (start.merge (← current).span)) : Timed Expr)) (do
        Parse.expectPeek .leftParen
        let names ← Parse.rule "Parameters" (Nested.parameters budget)
        Parse.expectPeek .leftBrace
        let body ← inner.block
        pure (.function name names body (start.merge (← Parse.current).span)))
        (fun _ after => after.InText) last := by
    intro start name last hw
    refine .bind hw (.expectPeek .leftParen hw.regular rfl) fun _ paren hw _ => ?_
    refine .bind hw (.rule _ hw fun entered hw _ => ends_parameters hw) fun names last hw _ => ?_
    refine .bind hw (.expectPeek .leftBrace hw.regular rfl) fun _ brace hw _ => ?_
    refine .bind hw (hi.block _ hw) fun body last hw hin => ?_
    exact .current (.pure hw.regular hin)
  refine .current (.peekIs (.ite (fun hname => ?_) fun _ => ?_))
  · refine .bind hw (.advance_of_peek hw.regular hname rfl) fun _ name hw _ => .current ?_
    exact .seeing rfl (hrest _ _ _ hw)
  · exact .seeing rfl (hrest _ _ _ hw)

theorem operand (hw : parser.Within budget levels) :
    Ends (fun clock => (timed clock).operand clock) (inner.operand budget)
      (fun _ after => after.InText) parser := by
  refine .current ?_
  cases hkind : parser.current.kind
  case ident => exact .pure hw.regular (.of_kind hkind rfl)
  case int =>
    dsimp only
    cases Numeral.read? parser.current.literal.toList with
    | none => exact .failAtCurrent hw.regular
    | some value => exact .pure hw.regular (.of_kind hkind rfl)
  case trueWord => exact .pure hw.regular (.of_kind hkind rfl)
  case falseWord => exact .pure hw.regular (.of_kind hkind rfl)
  case string => exact .pure hw.regular (.of_kind hkind rfl)
  case minus =>
    exact .rule _ hw fun entered hw hcurrent => hi.unary _ hw (.of_eq (.of_kind hkind rfl) hcurrent)
  case bang =>
    exact .rule _ hw fun entered hw hcurrent => hi.unary _ hw (.of_eq (.of_kind hkind rfl) hcurrent)
  case leftParen =>
    exact .rule _ hw fun entered hw hcurrent => hi.group hw (.of_eq (.of_kind hkind rfl) hcurrent)
  case ifWord => exact .rule _ hw fun entered hw _ => hi.conditional hw
  case fnWord => exact .rule _ hw fun entered hw _ => hi.function hw
  case leftBracket =>
    exact .rule _ hw fun entered hw hcurrent => hi.array hw (.of_eq (.of_kind hkind rfl) hcurrent)
  case leftBrace =>
    exact .rule _ hw fun entered hw hcurrent => hi.hash hw (.of_eq (.of_kind hkind rfl) hcurrent)
  all_goals exact .failAtCurrent hw.regular

/-- The parser and the timed one agree on whether a token is an operator. If it is, both take it
in, and a token less is left then. -/
theorem operator? (left : Expr) (hpeek : parser.peek.kind ≠ .eof) (hle : rounds + 1 ≤ budget)
    (hw : parser.Within (rounds + 1) levels) :
    (inner.operator? budget left parser.peek.kind = none ∧
      ∀ clock, (timed clock).operator? clock left parser.peek.kind = none) ∨
    ∃ step steps, inner.operator? budget left parser.peek.kind = some step ∧
      (∀ clock, (timed clock).operator? clock left parser.peek.kind = some (steps clock)) ∧
      Ends steps step (fun _ after => after.InText ∧ after.Within rounds levels) parser := by
  -- whatever is read behind the operator starts on it
  have hbehind : ∀ {steps : Nat → Timed Expr} {step : Parse Expr},
      (∀ taken : Parser, taken.Within budget levels → taken.InText →
        Ends steps step (fun _ after => after.InText) taken) →
      Ends (fun clock => Timed.advance >>= fun _ => steps clock) (Parse.advance >>= fun _ => step)
        (fun _ after => after.InText ∧ after.Within rounds levels) parser := by
    intro steps step hsteps
    refine .onward hw (hw.regular.inText hpeek) fun taken hw hcurrent => .within hw ?_
    have hin := Parser.InText.of_peek (beq_self_eq_true _) hcurrent (bne_iff_ne.mpr hpeek)
    exact hsteps _ (hw.mono (Nat.le_of_succ_le hle)) hin
  unfold Nested.operator? Inner.operator?
  cases BumpOp.ofKind? parser.peek.kind with
  | some op =>
    exact .inr ⟨_, _, rfl, fun _ => rfl,
      hbehind fun taken hw hin => .current (.pure hw.regular hin)⟩
  | none =>
    cases BinaryOp.ofKind? parser.peek.kind with
    | some op =>
      exact .inr ⟨_, _, rfl, fun _ => rfl, hbehind fun taken hw hin =>
        .rule _ hw fun entered hw hcurrent => hi.joined _ _ hw (hin.of_eq hcurrent)⟩
    | none =>
      cases LogicalOp.ofKind? parser.peek.kind with
      | some op =>
        exact .inr ⟨_, _, rfl, fun _ => rfl, hbehind fun taken hw hin =>
          .rule _ hw fun entered hw hcurrent => hi.joined _ _ hw (hin.of_eq hcurrent)⟩
      | none =>
        cases parser.peek.kind
        case leftParen =>
          exact .inr ⟨_, _, rfl, fun _ => rfl, hbehind fun taken hw hin =>
            .rule _ hw fun entered hw hcurrent => hi.call _ hw (hin.of_eq hcurrent)⟩
        case leftBracket =>
          exact .inr ⟨_, _, rfl, fun _ => rfl, hbehind fun taken hw hin =>
            .rule _ hw fun entered hw hcurrent => hi.index _ hw (hin.of_eq hcurrent)⟩
        all_goals exact .inl ⟨rfl, fun _ => rfl⟩

theorem operators (precedence : Precedence) (left : Expr) (used : Nat) (hle : rounds ≤ budget)
    (hw : parser.Within rounds levels) (hin : parser.InText) :
    Ends (fun clock => (timed clock).operators clock precedence left (clock - used))
      (inner.operators budget precedence left rounds) (fun _ after => after.InText) parser := by
  induction rounds generalizing left used parser with
  | zero => exact absurd hw.current_eof hin
  | succ rounds ih =>
    refine .round (fun clock => (timed clock).operators clock precedence left) ?_
    refine .get (.ite (fun hbinds => ?_) fun _ => .pure hw.regular hin)
    -- the end mark binds as loosely as anything, so it ends every expression
    have hpeek : parser.peek.kind ≠ .eof := by
      intro heof
      have hweaker := (Bool.and_eq_true_iff.mp hbinds).2
      rw [heof] at hweaker
      exact absurd (of_decide_eq_true hweaker) (Nat.not_lt_zero _)
    rcases hi.operator? left hpeek hle hw with ⟨hnone, hnever⟩ | ⟨step, steps, hsome, hsteps, hends⟩
    · simp only [hnone, hnever]
      exact .pure hw.regular hin
    · simp only [hsome, hsteps]
      exact .bind hw hends fun left last _ hlast =>
        ih _ _ (Nat.le_of_succ_le hle) hlast.2 hlast.1

theorem expressionRule (precedence : Precedence) (hw : parser.Within budget levels) :
    Ends (fun clock => (timed clock).expressionRule clock precedence)
      (inner.expressionRule budget precedence) (fun _ after => after.InText) parser :=
  .bind hw (hi.operand hw) fun left _ hw hin => hi.operators _ left 0 (Nat.le_refl _) hw hin

theorem binding (hw : parser.Within budget levels) :
    Ends (fun clock => (timed clock).binding) inner.binding (fun _ after => after.InText)
      parser := by
  refine .current (.bind hw (.expectPeek .ident hw.regular rfl) fun _ name hw _ => .current ?_)
  refine .bind hw (.expectPeek .assign hw.regular rfl) fun _ assign hw hkind => ?_
  refine .bind hw (.advance hw.regular (.of_kind hkind rfl)) fun _ first hw _ => ?_
  refine .bind hw (hi.expression .lowest _ hw) fun value last hw hin => ?_
  refine .bind hw (ends_skipSemicolon hw hin) fun _ last hw hin => ?_
  exact .pure hw.regular hin

theorem giving (hw : parser.Within budget levels) (hin : parser.InText) :
    Ends (fun clock => (timed clock).giving) inner.giving (fun _ after => after.InText)
      parser := by
  refine .current (.get (.ite (fun _ => ?_) fun _ => ?_))
  · refine .bind hw (ends_skipSemicolon hw hin) fun _ last hw hin => ?_
    exact .pure hw.regular hin
  · refine .bind hw (.advance hw.regular hin) fun _ first hw _ => ?_
    refine .bind hw (hi.expression .lowest _ hw) fun value last hw hin => ?_
    refine .bind hw (ends_skipSemicolon hw hin) fun _ last hw hin => ?_
    exact .pure hw.regular hin

theorem evaluation (hw : parser.Within budget levels) :
    Ends (fun clock => (timed clock).evaluation) inner.evaluation (fun _ after => after.InText)
      parser := by
  refine .bind hw (hi.expression .lowest _ hw) fun value last hw hin => ?_
  refine .bind hw (ends_skipSemicolon hw hin) fun _ last hw hin => ?_
  exact .pure hw.regular hin

theorem statement (hw : parser.Within budget levels) :
    Ends (fun clock => (timed clock).statement) inner.statement (fun _ after => after.InText)
      parser := by
  refine .rule _ hw fun entered hw _ => .current ?_
  cases hkind : entered.current.kind
  case letWord => exact .rule _ hw fun entered hw _ => hi.binding hw
  case returnWord =>
    exact .rule _ hw fun entered hw hcurrent => hi.giving hw (.of_eq (.of_kind hkind rfl) hcurrent)
  all_goals exact .rule _ hw fun entered hw _ => hi.evaluation hw

/-- The next statement of a block or a program, and the token behind it. -/
theorem nextStatement {rest : Nat → Stmt → Timed (List Stmt)} {more : Stmt → Parse (List Stmt)}
    {good : List Stmt → Parser → Prop} (hle : rounds + 1 ≤ budget)
    (hw : parser.Within (rounds + 1) levels)
    (hrest : ∀ stmt after, after.Within rounds levels →
      Ends (fun clock => rest clock stmt) (more stmt) good after) :
    Ends (fun clock => (timed clock).statement >>= fun stmt => Timed.advance >>=
        fun _ => rest clock stmt)
      (inner.statement >>= fun stmt => Parse.advance >>= fun _ => more stmt) good parser :=
  .bind hw (hi.statement (hw.mono hle)) fun stmt _ hw hin =>
    .onward hw hin fun after hw _ => hrest stmt after hw

theorem blockStatements (statements : List Stmt) (used : Nat) (hle : rounds ≤ budget)
    (hw : parser.Within rounds levels) :
    Ends (fun clock => (timed clock).blockStatements statements (clock - used))
      (inner.blockStatements statements rounds) (fun _ _ => True) parser := by
  induction rounds generalizing statements used parser with
  | zero =>
    -- with no token left both loops stop, the timed one at the end mark
    have hlook : inner.blockStatements statements 0 parser =
        (Parse.current >>= fun _ => Pure.pure statements) parser := rfl
    refine .of_eq (.round (fun clock => (timed clock).blockStatements statements) ?_) hlook
    refine .current ?_
    rw [hw.current_eof]
    exact .pure hw.regular trivial
  | succ rounds ih =>
    have hmore := Nat.le_of_succ_le hle
    refine .round (fun clock => (timed clock).blockStatements statements) (.current ?_)
    cases hkind : parser.current.kind
    case rightBrace => exact .pure hw.regular trivial
    case eof => exact .pure hw.regular trivial
    case semicolon => exact .onward hw (.of_kind hkind rfl) fun after hw _ => ih _ _ hmore hw
    all_goals exact hi.nextStatement hle hw fun stmt after hw => ih _ _ hmore hw

theorem blockRule (hw : parser.Within budget levels) :
    Ends (fun clock => (timed clock).blockRule clock) (inner.blockRule budget)
      (fun _ after => after.InText) parser := by
  refine .current (.bind hw (.expectCurrent hw.regular) fun _ brace hw hkind => ?_)
  refine .bind hw (.advance hw.regular (.of_kind hkind rfl)) fun _ first hw _ => ?_
  refine .bind hw (hi.blockStatements [] 0 (Nat.le_refl _) hw) fun statements last hw _ => ?_
  refine .currentIs (.ite (fun _ => .failAtCurrent hw.regular) fun hne => .current ?_)
  exact .pure hw.regular fun heof => hne (beq_iff_eq.mpr heof)

/-- The loop over the statements of a program. -/
theorem statements (read : List Stmt) (used : Nat) (hle : rounds ≤ budget)
    (hw : parser.Within rounds levels) :
    Ends (fun clock => (timed clock).statements read (clock - used))
      (Parser.statements inner read rounds) (fun _ _ => True) parser := by
  induction rounds generalizing read used parser with
  | zero =>
    have hlook : Parser.statements inner read 0 parser =
        (Parse.current >>= fun _ => Pure.pure read) parser := rfl
    refine .of_eq (.round (fun clock => (timed clock).statements read) ?_) hlook
    refine .current ?_
    rw [hw.current_eof]
    exact .pure hw.regular trivial
  | succ rounds ih =>
    have hmore := Nat.le_of_succ_le hle
    refine .round (fun clock => (timed clock).statements read) (.current ?_)
    cases hkind : parser.current.kind
    case eof => exact .pure hw.regular trivial
    case semicolon => exact .onward hw (.of_kind hkind rfl) fun after hw _ => ih _ _ hmore hw
    all_goals exact hi.nextStatement hle hw fun stmt after hw => ih _ _ hmore hw

end Timely

/-- By induction on the levels left: a nested rule takes a tick of the clock and goes in one level.
With no level left it fails. -/
theorem timely_at (budget levels : Nat) :
    Timely inner ⟨Parse.expressionAt budget levels, Parse.blockAt budget levels⟩ budget levels := by
  induction levels with
  | zero =>
    constructor
    · exact fun precedence parser hw => .tick (.tooDeep hw.regular hw.levels_le)
    · exact fun parser hw => .tick (.tooDeep hw.regular hw.levels_le)
  | succ levels ih =>
    constructor
    · exact fun precedence parser hw => .tick (.nested hw fun entered hw =>
        .rule _ hw fun entered hw _ => ih.expressionRule precedence hw)
    · exact fun parser hw => .tick (.nested hw fun entered hw =>
        .rule _ hw fun entered hw _ => ih.blockRule hw)

end Inner

/-! ### Whole calls -/

theorem timely_nested (parser : Parser) :
    Inner.Timely inner parser.nested parser.roundsLeft parser.levelsLeft :=
  Inner.timely_at _ _

theorem ends_parseExpression (precedence : Precedence) (h : parser.Regular) :
    Ends (parseExpression precedence) (Parser.parseExpression precedence)
      (fun _ after => after.InText) parser :=
  .of_eq ((timely_nested parser).expression precedence parser (.of_regular h)) rfl

theorem ends_parseStatement (h : parser.Regular) :
    Ends parseStatement Parser.parseStatement (fun _ after => after.InText) parser :=
  .of_eq ((timely_nested parser).statement (.of_regular h)) rfl

theorem ends_parseProgram (h : parser.Regular) :
    Ends parseProgram Parser.parseProgram (fun _ _ => True) parser := by
  have hraise : Ends (fun _ => ofParse Parse.raiseFault) Parse.raiseFault (fun _ _ => True)
      parser := by
    refine .still ?_ fun _ _ => trivial
    unfold Parse.raiseFault
    cases parser.fault with
    | none => exact .refl h
    | some found => exact .noted h none parser.journal
  refine .bind (.of_regular h) hraise fun _ begun hbegun _ => .of_get ?_
  have hw := Parser.Within.of_regular hbegun.regular
  have hread := (timely_nested begun).statements [] 0 (Nat.le_refl _) hw
  refine .bind hw hread fun read last hw _ => ?_
  exact .still (.noted hw.regular last.fault _) fun _ _ => trivial

/-- The call returns on this parser: given time enough, the timed call ends as it does. Every move
takes a token that is left, no more nested rules are held at once than the limit allows, and the
depth is as before. -/
structure Returns (timed : Nat → Timed α) (call : Parse α) (before : Parser) : Prop where
  ends : ∃ clock events,
    (∀ more, clock ≤ more → timed more 0 before = some (call before, events)) ∧
    (call before).2.drawn = before.drawn + events.count .advance ∧
    events.count .advance ≤ before.remaining ∧
    ∀ rules, .hold rules ∈ events → rules ≤ before.maxDepth
  depth_eq : (call before).2.depth = before.depth
  maxDepth_eq : (call before).2.maxDepth = before.maxDepth

theorem Ends.returns {timed : Nat → Timed α} {call : Parse α} {good : α → Parser → Prop}
    (h : Ends timed call good parser) (hdepth : parser.depth = 0) : Returns timed call parser := by
  obtain ⟨clock, events, hends, hspent⟩ := h.ends
  rw [hdepth] at hends
  have hmoves := Nat.le.intro ((Nat.add_comm _ _).trans hspent.remaining_eq)
  exact ⟨⟨clock, events, hends, hspent.drawn_eq, hmoves, hspent.holds⟩, hspent.depth_eq,
    hspent.maxDepth_eq⟩

theorem Ends.regular {timed : Nat → Timed α} {call : Parse α} {good : α → Parser → Prop}
    (h : Ends timed call good parser) : (call parser).2.Regular := by
  obtain ⟨_, _, _, hspent⟩ := h.ends
  exact hspent.regular

end Timed

/-! ### Calls in any order -/

namespace Parser

/-- The parsers that calls on a source lead to, whether the calls succeed or fail. -/
inductive Reached : Parser → Prop where
  | ofString (source : String) (maxDepth : Nat) (journal : Journal) :
    Reached (ofString source maxDepth journal)
  | parseExpression {parser : Parser} (h : Reached parser) (precedence : Precedence) :
    Reached (parseExpression precedence parser).2
  | parseStatement {parser : Parser} (h : Reached parser) : Reached (parseStatement parser).2
  | parseProgram {parser : Parser} (h : Reached parser) : Reached (parseProgram parser).2

/-- The window of a new parser is on the first two tokens, and no rule is being read. -/
theorem regular_ofStream {stream : TokenStream} (h : stream.Regular) (maxDepth : Nat)
    (journal : Journal) :
    (ofStream stream maxDepth journal).Regular ∧ (ofStream stream maxDepth journal).depth = 0 := by
  obtain ⟨pending, endMark⟩ := stream
  unfold ofStream
  obtain ⟨fault, noted, hshift⟩ := shift_eq
    { stream := ⟨pending, endMark⟩, current := endMark, peek := endMark, fault := none, depth := 0,
      maxDepth, indent := 0, drawn := 0, journal }
  rw [hshift]
  obtain ⟨later, last, hagain⟩ := shift_eq
    { stream := (TokenStream.next ⟨pending, endMark⟩).2, current := endMark,
      peek := (TokenStream.next ⟨pending, endMark⟩).1.token, fault, depth := 0, maxDepth,
      indent := 0, drawn := 1, journal := noted }
  rw [hagain]
  have hproper := h.proper
  rcases pending with _ | ⟨first, _ | ⟨second, rest⟩⟩
  · exact ⟨⟨h, fun _ => rfl, fun _ => h.endMark⟩, rfl⟩
  · exact ⟨⟨⟨List.forall_mem_nil _, h.endMark⟩, fun _ => rfl, fun _ => h.endMark⟩, rfl⟩
  · have hfirst := (hproper first List.mem_cons_self).2
    have hsecond := (hproper second (List.mem_cons_of_mem _ List.mem_cons_self)).2
    have hrest := fun other ho =>
      hproper other (List.mem_cons_of_mem _ (List.mem_cons_of_mem _ ho))
    exact ⟨⟨⟨hrest, h.endMark⟩, fun heof => absurd heof hsecond, fun heof => absurd heof hfirst⟩,
      rfl⟩

/-- Every call keeps the window regular and leaves no rule counted. -/
theorem Reached.regular {parser : Parser} (h : parser.Reached) :
    parser.Regular ∧ parser.depth = 0 := by
  induction h with
  | ofString source maxDepth journal =>
    exact regular_ofStream (TokenStream.regular_ofString source) maxDepth journal
  | parseExpression _ precedence ih =>
    have hends := Timed.ends_parseExpression precedence ih.1
    exact ⟨hends.regular, (hends.returns ih.2).depth_eq.trans ih.2⟩
  | parseStatement _ ih =>
    have hends := Timed.ends_parseStatement ih.1
    exact ⟨hends.regular, (hends.returns ih.2).depth_eq.trans ih.2⟩
  | parseProgram _ ih =>
    have hends := Timed.ends_parseProgram ih.1
    exact ⟨hends.regular, (hends.returns ih.2).depth_eq.trans ih.2⟩

end Parser

namespace Timed

/-- Every call of a parser returns, on any source and whatever calls came before, failed ones too:
a clock that lasts long enough changes nothing. It moves on no more often than there are tokens
left, holds no more nested rules at once than the limit allows, and leaves the depth as it was. -/
theorem returns_of_reached {before : Parser} (h : before.Reached) :
    (∀ precedence,
      Returns (parseExpression precedence) (Parser.parseExpression precedence) before) ∧
    Returns parseStatement Parser.parseStatement before ∧
    Returns parseProgram Parser.parseProgram before := by
  obtain ⟨hregular, hdepth⟩ := h.regular
  refine ⟨fun precedence => ?_, ?_, ?_⟩
  · exact (ends_parseExpression precedence hregular).returns hdepth
  · exact (ends_parseStatement hregular).returns hdepth
  · exact (ends_parseProgram hregular).returns hdepth

/-- Behind a statement that breaks off with six tokens left, the rest of the source nests deeper
than two levels. -/
theorem returns_of_reached_malformed : ∃ (start : Parser) (missing tooDeep : ParseError),
    start.Reached ∧ (Parser.parseStatement start).1 = .error missing ∧
    missing.cause = .noExpression .semicolon ∧ (Parser.parseStatement start).2.remaining = 6 ∧
    (Parser.parseProgram (Parser.parseStatement start).2).1 = .error tooDeep ∧
    tooDeep.cause = .nestingTooDeep 2 ∧
    Returns parseProgram Parser.parseProgram (Parser.parseStatement start).2 := by
  have hstart : (Parser.ofString "1 + ; -(-(3" 2 (.opened .off)).Reached := .ofString _ _ _
  have hmissing : (Parser.parseStatement (Parser.ofString "1 + ; -(-(3" 2 (.opened .off))).1 =
      .error ⟨.noExpression .semicolon, ⟨1, 5⟩, ⟨4, 5⟩⟩ := by with_unfolding_all rfl
  have hleft : (Parser.parseStatement
      (Parser.ofString "1 + ; -(-(3" 2 (.opened .off))).2.remaining = 6 := by with_unfolding_all rfl
  have hdeep : (Parser.parseProgram (Parser.parseStatement
      (Parser.ofString "1 + ; -(-(3" 2 (.opened .off))).2).1 =
      .error ⟨.nestingTooDeep 2, ⟨1, 9⟩, ⟨8, 9⟩⟩ := by with_unfolding_all rfl
  exact ⟨_, _, _, hstart, hmissing, rfl, hleft, hdeep, rfl,
    (returns_of_reached hstart.parseStatement).2.2⟩

end Timed

end Simian
