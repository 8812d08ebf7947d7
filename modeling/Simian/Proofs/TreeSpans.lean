import Simian.Proofs.ErrorPlaces
import Simian.Proofs.LosslessReading
import Simian.Proofs.TreeDerivations
import Simian.Proofs.TreeEquality

/-!
# Trees have the spans of their tokens

A rule that starts with the current token at a place, and gives a value, stops with the current
token at a place no earlier, and the value is derived from the tokens between them
(`Parse.Walks`). For an expression these two tokens are its first and its last one. Every rule
gives to what it reads the span from the one to the other, so a program that is parsed has exact
spans throughout (`Program.exact_of_parse`).
-/
namespace Simian

open Parse

namespace Parse

/-- From the place on the rule reads up to a place no earlier, if it gives a value, and the value
goes with the place. The budget is enough for the tokens from the place on. -/
def Walks {α : Type} (stream : TokenStream) (budget first : Nat) (step : Parse α)
    (post : α → Nat → Prop) : Prop :=
  stream.pending.length ≤ first + budget → ∀ parser value after, parser.StandsAt stream first →
    step parser = (.ok value, after) →
      ∃ last, first ≤ last ∧ after.StandsAt stream last ∧ post value last

variable {α β : Type} {stream : TokenStream} {budget first : Nat} {step : Parse α}
  {post : α → Nat → Prop}

theorem walks_pure {value : α} (h : post value first) :
    Walks stream budget first (pure value) post := by
  intro _ parser result after hat hr
  obtain ⟨rfl, rfl⟩ := Attempt.pure_eq_ok hr
  exact ⟨first, Nat.le_refl _, hat, h⟩

theorem walks_pure_bind {value : α} {next : α → Parse β} {later : β → Nat → Prop}
    (h : Walks stream budget first (next value) later) :
    Walks stream budget first (pure value >>= next) later := h

theorem Walks.bind {next : α → Parse β} {later : β → Nat → Prop}
    (h : Walks stream budget first step post)
    (hnext : ∀ value mid, first ≤ mid → post value mid →
      Walks stream budget mid (next value) later) :
    Walks stream budget first (step >>= next) later := by
  intro hbudget parser result after hat hr
  obtain ⟨value, between, hstep, hrest⟩ := Attempt.bind_eq_ok hr
  obtain ⟨mid, hmid, hbetween, hpost⟩ := h hbudget parser value between hat hstep
  have henough : stream.pending.length ≤ mid + budget :=
    Nat.le_trans hbudget (Nat.add_le_add_right hmid budget)
  obtain ⟨last, hlast, hafter, hlater⟩ :=
    hnext value mid hmid hpost henough between result after hbetween hrest
  exact ⟨last, Nat.le_trans hmid hlast, hafter, hlater⟩

theorem Walks.mono {also : α → Nat → Prop} (h : Walks stream budget first step post)
    (hpost : ∀ value last, first ≤ last → post value last → also value last) :
    Walks stream budget first step also := by
  intro hbudget parser value after hat hr
  obtain ⟨last, hlast, hafter, hvalue⟩ := h hbudget parser value after hat hr
  exact ⟨last, hlast, hafter, hpost value last hlast hvalue⟩

theorem walks_of_budget
    (h : stream.pending.length ≤ first + budget → Walks stream budget first step post) :
    Walks stream budget first step post := fun hbudget => h hbudget hbudget

theorem walks_failAtCurrent (cause : ParseError.Cause) :
    Walks stream budget first (failAtCurrent cause) post := by
  intro _ parser value after _ h
  cases h

theorem walks_ite {c : Bool} {other : Parse α} (h : c = true → Walks stream budget first step post)
    (hother : c = false → Walks stream budget first other post) :
    Walks stream budget first (if c then step else other) post := by
  cases hc : c with
  | true => exact h hc
  | false => exact hother hc

theorem walks_current {next : Token → Parse α}
    (h : Walks stream budget first (next (stream.tokenAt first)) post) :
    Walks stream budget first (current >>= next) post := by
  intro hbudget parser value after hat hr
  refine h hbudget parser value after hat ?_
  rw [← hr, TokenStream.tokenAt, ← hat.current_eq]
  rfl

theorem walks_currentIs {kind : Token.Kind} {next : Bool → Parse α}
    (h : Walks stream budget first (next ((stream.tokenAt first).kind == kind)) post) :
    Walks stream budget first (currentIs kind >>= next) post := by
  intro hbudget parser value after hat hr
  refine h hbudget parser value after hat ?_
  rw [← hr, TokenStream.tokenAt, ← hat.current_eq]
  rfl

theorem walks_peekIs {kind : Token.Kind} {next : Bool → Parse α}
    (h : Walks stream budget first (next ((stream.tokenAt (first + 1)).kind == kind)) post) :
    Walks stream budget first (peekIs kind >>= next) post := by
  intro hbudget parser value after hat hr
  refine h hbudget parser value after hat ?_
  rw [← hr, TokenStream.tokenAt, ← hat.peek_eq]
  rfl

theorem walks_get {next : Parser → Parse α}
    (h : ∀ parser : Parser, parser.StandsAt stream first →
      Walks stream budget first (next parser) post) :
    Walks stream budget first (get >>= next) post := by
  intro hbudget parser value after hat hr
  exact h parser hat hbudget parser value after hat hr

/-- Moving on goes to the next place. -/
theorem advance_walks : Walks stream budget first advance fun _ last => last = first + 1 := by
  intro hbudget parser value after hat hr
  unfold advance raiseFault at hr
  split at hr
  next hnone =>
    cases hr
    obtain ⟨hdraws, hcurrent, hpeek, hfault⟩ := hat.draws.shift
    refine ⟨first + 1, Nat.le_succ _, ⟨hdraws, hcurrent.trans hat.peek_eq, hpeek, hnone, ?_⟩, rfl⟩
    intro earlier hlt
    rcases Nat.lt_succ_iff_lt_or_eq.mp hlt with hlt | rfl
    · exact hat.clean earlier hlt
    · rw [hnone, hat.fault_eq, Option.none_or, Parser.faultAt, eq_comm, Option.map_eq_none_iff]
        at hfault
      exact hfault
  next => cases hr

theorem walks_advance {next : Unit → Parse α} (h : Walks stream budget (first + 1) (next ()) post) :
    Walks stream budget first (advance >>= next) post := by
  refine advance_walks.bind fun _ mid _ hmid => ?_
  rw [hmid]
  exact h

/-- Insisting on a kind goes to the next place, where a token of the kind stands. -/
theorem walks_expectPeek {kind : Token.Kind} {next : Unit → Parse α}
    (h : stream.Has (first + 1) kind → Walks stream budget (first + 1) (next ()) post) :
    Walks stream budget first (expectPeek kind >>= next) post := by
  intro hbudget parser value after hat hr
  obtain ⟨_, between, hexpect, hnext⟩ := Attempt.bind_eq_ok hr
  unfold expectPeek at hexpect
  split at hexpect
  next hkind =>
    have hhas : stream.Has (first + 1) kind := by
      rw [TokenStream.Has, TokenStream.tokenAt, ← hat.peek_eq]
      exact beq_iff_eq.mp hkind
    exact walks_advance (h hhas) hbudget parser value after hat
      ((Attempt.bind_of_ok hexpect).trans hnext)
  next => cases hexpect

theorem walks_expectCurrent {kind : Token.Kind} {next : Unit → Parse α}
    (h : stream.Has first kind → Walks stream budget first (next ()) post) :
    Walks stream budget first (expectCurrent kind >>= next) post := by
  intro hbudget parser value after hat hr
  obtain ⟨_, between, hexpect, hnext⟩ := Attempt.bind_eq_ok hr
  unfold expectCurrent at hexpect
  split at hexpect
  next hkind =>
    cases hexpect
    have hhas : stream.Has first kind := by
      rw [TokenStream.Has, TokenStream.tokenAt, ← hat.current_eq]
      exact beq_iff_eq.mp hkind
    exact h hhas hbudget parser value after hat hnext
  next => cases hexpect

/-- Tracing a rule does not move the window. -/
theorem Walks.rule (h : Walks stream budget first step post) (name : String) :
    Walks stream budget first (rule name step) post := by
  intro hbudget parser value after hat hr
  unfold Parse.rule at hr
  split at hr
  · dsimp only at hr
    generalize hentered : { parser.trace (name ++ " (") with
      indent := (parser.trace (name ++ " (")).indent + 1 } = entered at hr
    have hinner : entered.StandsAt stream first := by
      rw [← hentered]
      exact hat.congr rfl rfl rfl rfl
    generalize hstep : step entered = out at hr
    obtain ⟨result, inner⟩ := out
    cases hr
    obtain ⟨last, hlast, hafter, hpost⟩ := h hbudget entered value inner hinner hstep
    exact ⟨last, hlast, hafter.congr rfl rfl rfl rfl, hpost⟩
  · exact h hbudget parser value after hat hr

theorem Walks.nested (h : Walks stream budget first step post) :
    Walks stream budget first (nested step) post := by
  intro hbudget parser value after hat hr
  unfold Parse.nested at hr
  split at hr
  · cases hr
  · split at hr
    next result inner hstep =>
      cases hr
      obtain ⟨last, hlast, hafter, hpost⟩ := h hbudget { parser with depth := parser.depth + 1 }
        value inner (hat.congr rfl rfl rfl rfl) hstep
      exact ⟨last, hlast, hafter.congr rfl rfl rfl rfl, hpost⟩

end Parse

/-- The statement ends at the last place, or right before a semicolon there. -/
def Terminated (stream : TokenStream) (stmt : Stmt) (first last : Nat) : Prop :=
  ∃ stop, StmtFrom stream stmt first stop ∧
    (last = stop ∨ last = stop + 1 ∧ stream.Has last .semicolon)

/-- One more statement comes behind those before it. -/
theorem Sequence.snoc {stream : TokenStream} {statements : List Stmt} {stmt : Stmt}
    {first mid last : Nat} (h : Sequence stream (StmtFrom stream) statements.reverse first mid)
    (hstmt : Terminated stream stmt mid last) :
    Sequence stream (StmtFrom stream) (stmt :: statements).reverse first (last + 1) := by
  rw [List.reverse_cons]
  obtain ⟨stop, hstmt, rfl | ⟨rfl, hsemicolon⟩⟩ := hstmt
  · exact h.more hstmt
  · exact (h.more hstmt).semicolon hsemicolon

/-! ### Lists and operands -/

/-- One more part of a list, read behind a comma, goes with those before it. -/
theorem Separated.snoc {stream : TokenStream} {α : Type} {part : α → Nat → Nat → Prop}
    {items : List α} {item : α} {first mid last : Nat}
    (h : Separated stream part items.reverse first mid) (hcomma : stream.Has (mid + 1) .comma)
    (hitem : part item (mid + 2) last) :
    Separated stream part (item :: items).reverse first last := by
  rw [List.reverse_cons]
  exact .more h hcomma hitem

namespace Nested

/-- The rules for what stands inside read what is derived from the tokens they take. -/
structure Derives (inner : Nested) (stream : TokenStream) (budget : Nat) : Prop where
  expression : ∀ precedence first, Walks stream budget first (inner.expression precedence)
    fun expr last => ExprFrom stream expr first last
  block : ∀ first, Walks stream budget first inner.block
    fun block last => BlockFrom stream block first last

variable {inner : Nested} {stream : TokenStream} {budget rounds first start : Nat}

theorem moreParameters_derives {names : List String}
    (h : Separated stream (NameFrom stream) names.reverse start first) :
    Walks stream budget first (moreParameters names rounds) fun result last =>
      Separated stream (NameFrom stream) result.reverse start last := by
  induction rounds generalizing names first with
  | zero => exact walks_pure h
  | succ rounds ih =>
    refine walks_peekIs (walks_ite (fun hcomma => ?_) fun _ => walks_pure h)
    refine walks_advance (walks_expectPeek fun hident => walks_current ?_)
    dsimp only
    split
    · exact walks_failAtCurrent _
    · exact ih (.snoc h (beq_iff_eq.mp hcomma) (.mk hident))

theorem parameters_derives : Walks stream budget first (parameters rounds) fun names last =>
    Closed stream (NameFrom stream) .rightParen names (first + 1) last := by
  refine walks_peekIs (walks_ite (fun hclose => ?_) fun _ => ?_)
  · exact walks_advance (walks_pure (.none (beq_iff_eq.mp hclose)))
  · refine walks_expectPeek fun hident => walks_current ?_
    refine (moreParameters_derives (.one (.mk hident))).bind fun names mid _ hnames => ?_
    exact walks_expectPeek fun hclose => walks_pure (.some hnames hclose)

theorem skipSemicolon_derives : Walks stream budget first skipSemicolon fun _ last =>
    last = first ∨ last = first + 1 ∧ stream.Has last .semicolon := by
  refine walks_peekIs (walks_ite (fun hsemicolon => ?_) fun _ => walks_pure (.inl rfl))
  refine advance_walks.mono fun _ last _ hlast => .inr ⟨hlast, ?_⟩
  rw [hlast]
  exact beq_iff_eq.mp hsemicolon

namespace Derives

theorem moreItems (h : inner.Derives stream budget) {items : List Expr}
    (hitems : Separated stream (ExprFrom stream) items.reverse start first) :
    Walks stream budget first (inner.moreItems items rounds) fun result last =>
      Separated stream (ExprFrom stream) result.reverse start last := by
  induction rounds generalizing items first with
  | zero => exact walks_pure hitems
  | succ rounds ih =>
    refine walks_peekIs (walks_ite (fun hcomma => ?_) fun _ => walks_pure hitems)
    refine walks_advance (walks_advance ((h.expression _ _).bind fun item mid _ hitem => ?_))
    exact ih (.snoc hitems (beq_iff_eq.mp hcomma) hitem)

theorem items (h : inner.Derives stream budget) {closing : Token.Kind} :
    Walks stream budget first (inner.items rounds closing) fun items last =>
      Closed stream (ExprFrom stream) closing items (first + 1) last := by
  refine walks_peekIs (walks_ite (fun hclose => ?_) fun _ => ?_)
  · exact walks_advance (walks_pure (.none (beq_iff_eq.mp hclose)))
  · refine walks_advance ((h.expression _ _).bind fun item mid _ hitem => ?_)
    refine (h.moreItems (.one hitem)).bind fun items last _ hitems => ?_
    exact walks_expectPeek fun hclose => walks_pure (.some hitems hclose)

theorem entry (h : inner.Derives stream budget) :
    Walks stream budget first inner.entry fun entry last =>
      Paired stream (ExprFrom stream) entry (first + 1) last := by
  refine walks_advance ((h.expression _ _).bind fun key mid _ hkey => ?_)
  refine walks_expectPeek fun hcolon => walks_advance ?_
  exact (h.expression _ _).bind fun value last _ hvalue => walks_pure (.mk hkey hcolon hvalue)

theorem moreEntries (h : inner.Derives stream budget) {entries : List (Expr × Expr)}
    (hentries : Separated stream (Paired stream (ExprFrom stream)) entries.reverse start first) :
    Walks stream budget first (inner.moreEntries entries rounds) fun result last =>
      Separated stream (Paired stream (ExprFrom stream)) result.reverse start last := by
  induction rounds generalizing entries first with
  | zero => exact walks_pure hentries
  | succ rounds ih =>
    refine walks_peekIs (walks_ite (fun hcomma => ?_) fun _ => walks_pure hentries)
    refine walks_advance (h.entry.bind fun entry mid _ hentry => ?_)
    exact ih (.snoc hentries (beq_iff_eq.mp hcomma) hentry)

section
variable (ha : stream.Ascending) (h : inner.Derives stream budget)
include ha h

theorem hash (hopen : stream.Has first .leftBrace) :
    Walks stream budget first (inner.hash rounds)
      fun expr last => BareFrom stream expr first last := by
  refine walks_current (walks_peekIs (walks_ite (fun hclose => ?_) fun _ => ?_))
  · refine walks_expectPeek fun hclose => walks_current (walks_pure ?_)
    rw [ha.merge_tokens (Nat.le_succ _)]
    exact .hash hopen (.none hclose)
  · refine h.entry.bind fun entry mid hmid hentry => ?_
    refine (h.moreEntries (.one hentry)).bind fun entries stop hstop hentries => ?_
    refine walks_expectPeek fun hclose => walks_current (walks_pure ?_)
    rw [ha.merge_tokens (by omega)]
    exact .hash hopen (.some hentries hclose)

theorem conditional (hword : stream.Has first .ifWord) :
    Walks stream budget first inner.conditional
      fun expr last => BareFrom stream expr first last := by
  refine walks_current (walks_expectPeek fun hopen => walks_advance ?_)
  refine (h.expression _ _).bind fun condition mid hmid hcondition => ?_
  refine walks_expectPeek fun hclose => walks_expectPeek fun _ => ?_
  refine (h.block _).bind fun thenBlock stop hstop hthen => ?_
  refine walks_peekIs (walks_ite (fun helse => ?_) fun _ => ?_)
  · refine walks_advance (walks_expectPeek fun _ => ?_)
    refine (h.block _).bind fun elseBlock last hlast hblock => ?_
    refine walks_current (walks_pure ?_)
    rw [ha.merge_tokens (by omega)]
    exact .ifElse hword hopen hcondition hclose hthen (beq_iff_eq.mp helse) hblock
  · refine walks_current (walks_pure ?_)
    rw [ha.merge_tokens (by omega)]
    exact .ifThen hword hopen hcondition hclose hthen

theorem function (hword : stream.Has first .fnWord) :
    Walks stream budget first (inner.function rounds) fun expr last =>
      BareFrom stream expr first last := by
  have htail : ∀ {name : Option String} {opening : Nat}, first ≤ opening →
      opening = first ∨ stream.Has (first + 1) .ident ∧ opening = first + 1 →
      Walks stream budget opening (inner.functionTail rounds (stream.tokenAt first).span name)
        fun expr last => BareFrom stream expr first last := by
    intro name opening hfirst hopening
    refine walks_expectPeek fun hopen => ?_
    refine (parameters_derives.rule _).bind fun names close hclose hnames => ?_
    refine walks_expectPeek fun _ => (h.block _).bind fun body last hlast hbody => ?_
    refine walks_current (walks_pure ?_)
    rw [ha.merge_tokens (by omega)]
    refine .function hword ?_ hopen hnames hbody
    exact hopening.imp (congrArg (· + 1)) fun hident => ⟨hident.1, congrArg (· + 1) hident.2⟩
  refine walks_current (walks_peekIs (walks_ite (fun hident => ?_) fun _ => ?_))
  · refine walks_advance (walks_current (walks_pure_bind ?_))
    exact htail (Nat.le_succ _) (.inr ⟨beq_iff_eq.mp hident, rfl⟩)
  · exact walks_pure_bind (htail (Nat.le_refl _) (.inl rfl))

theorem unary {op : UnaryOp} (hop : stream.Has first op.kind) :
    Walks stream budget first (inner.unary op)
      fun expr last => BareFrom stream expr first last := by
  refine walks_current (walks_advance ?_)
  refine (h.expression _ _).bind fun operand last hlast hoperand => ?_
  refine walks_pure ?_
  rw [stream.span_tokenAt, hoperand.span_eq, ha.merge_between (Nat.le_succ _) (by omega)]
  exact .unary hop hoperand

theorem group (hopen : stream.Has first .leftParen) :
    Walks stream budget first inner.group fun expr last => ExprFrom stream expr first last := by
  refine walks_current (walks_advance ((h.expression _ _).bind fun expr last hlast hexpr => ?_))
  refine walks_expectPeek fun hclose => walks_current (walks_pure ?_)
  rw [ha.merge_tokens (by omega)]
  exact .parens hopen hexpr hclose

theorem array (hopen : stream.Has first .leftBracket) :
    Walks stream budget first (inner.array rounds)
      fun expr last => BareFrom stream expr first last := by
  refine walks_current (h.items.bind fun elements last hlast helements => ?_)
  refine walks_current (walks_pure ?_)
  rw [ha.merge_tokens hlast]
  exact .array hopen helements

/-- An operand starts with the current token, which says of what kind it is. -/
theorem operand : Walks stream budget first (inner.operand rounds) fun expr last =>
    ExprFrom stream expr first last := by
  have hbare : ∀ {step : Parse Expr} {kind : Token.Kind}, stream.Has first kind → kind ≠ .eof →
      Walks stream budget first step (fun expr last => BareFrom stream expr first last) →
      Walks stream budget first step fun expr last => ExprFrom stream expr first last :=
    fun hkind hne hstep => hstep.mono fun expr last hlast hexpr =>
      .bare hlast (fun heof => hne (hkind.symm.trans heof)) hexpr
  refine walks_current ?_
  split
  next hkind => exact hbare hkind (by decide) (walks_pure (.ident hkind))
  next hkind =>
    split
    next value hvalue => exact hbare hkind (by decide) (walks_pure (.integer hkind hvalue))
    · exact walks_failAtCurrent _
  next hkind => exact hbare hkind (by decide) (walks_pure (.boolean hkind))
  next hkind => exact hbare hkind (by decide) (walks_pure (.boolean hkind))
  next hkind => exact hbare hkind (by decide) (walks_pure (.string hkind))
  next hkind =>
    have hop : stream.Has first UnaryOp.negate.kind := hkind
    exact hbare hkind (by decide) ((h.unary ha hop).rule _)
  next hkind =>
    have hop : stream.Has first UnaryOp.invert.kind := hkind
    exact hbare hkind (by decide) ((h.unary ha hop).rule _)
  next hkind => exact (h.group ha hkind).rule _
  next hkind => exact hbare hkind (by decide) ((h.conditional ha hkind).rule _)
  next hkind => exact hbare hkind (by decide) ((h.function ha hkind).rule _)
  next hkind => exact hbare hkind (by decide) ((h.array ha hkind).rule _)
  next hkind => exact hbare hkind (by decide) ((h.hash ha hkind).rule _)
  · exact walks_failAtCurrent _

/-! ### Operators -/

theorem joined {left : Expr} {join : Expr → Expr → Span → Expr} (hstart : start ≤ first)
    (hleft : left.span = stream.between start first) :
    Walks stream budget (first + 1) (inner.joined left join) fun expr last =>
      ∃ right, expr = join left right (stream.between start last) ∧
        ExprFrom stream right (first + 2) last := by
  refine walks_current (walks_advance ((h.expression _ _).bind fun right last hlast hright => ?_))
  refine walks_pure ⟨right, ?_, hright⟩
  rw [hleft, hright.span_eq, ha.merge_between (by omega) (by omega)]

/-- Whatever operator comes next takes in the expression that starts at the one place and ends at
the other as its left operand. -/
theorem operator? {left : Expr} (hleft : ExprFrom stream left start first) {step : Parse Expr}
    (hs : inner.operator? rounds left (stream.tokenAt (first + 1)).kind = some step) :
    Walks stream budget first step fun expr last => ExprFrom stream expr start last := by
  have hspan := hleft.span_eq
  have hstart := hleft.first_le
  suffices hbare : Walks stream budget first step
      fun expr last => BareFrom stream expr start last from
    hbare.mono fun expr last hlast hexpr =>
      .bare (Nat.le_trans hstart hlast) hleft.not_eof hexpr
  unfold Nested.operator? at hs
  split at hs
  next op hop =>
    cases hs
    have hkind := BumpOp.kind_of_ofKind? hop
    refine walks_advance (walks_current (walks_pure ?_))
    rw [hspan, stream.span_tokenAt, ha.merge_between (by omega) (by omega)]
    exact .bump hleft hkind
  next op hop _ =>
    cases hs
    have hkind := BinaryOp.kind_of_ofKind? hop
    refine walks_advance (((h.joined ha hstart hspan).rule _).mono ?_)
    rintro _ last - ⟨right, rfl, hright⟩
    exact .binary hleft hkind hright
  next op hop _ _ =>
    cases hs
    have hkind := LogicalOp.kind_of_ofKind? hop
    refine walks_advance (((h.joined ha hstart hspan).rule _).mono ?_)
    rintro _ last - ⟨right, rfl, hright⟩
    exact .logical hleft hkind hright
  · split at hs
    next hkind =>
      cases hs
      refine walks_advance (Walks.rule ?_ _)
      refine h.items.bind fun arguments last hlast harguments => walks_current (walks_pure ?_)
      rw [hspan, stream.span_tokenAt, ha.merge_between (by omega) (by omega)]
      exact .call hleft hkind harguments
    next hkind =>
      cases hs
      refine walks_advance (Walks.rule (walks_advance ?_) _)
      refine (h.expression _ _).bind fun key last hlast hkey => ?_
      refine walks_expectPeek fun hclose => walks_current (walks_pure ?_)
      rw [hspan, stream.span_tokenAt, ha.merge_between (by omega) (by omega)]
      exact .index hleft hkind hkey hclose
    · cases hs

theorem operators {precedence : Precedence} {left : Expr}
    (hleft : ExprFrom stream left start first) {rounds : Nat} :
    Walks stream budget first (inner.operators budget precedence left rounds) fun expr last =>
      ExprFrom stream expr start last := by
  induction rounds generalizing left first with
  | zero => exact walks_pure hleft
  | succ rounds ih =>
    refine walks_get fun parser hat => walks_ite (fun _ => ?_) fun _ => walks_pure hleft
    rw [hat.peek_eq]
    split
    next step hs => exact (h.operator? ha hleft hs).bind fun left mid _ hmid => ih hmid
    · exact walks_pure hleft

theorem expressionRule (precedence : Precedence) :
    Walks stream budget first (inner.expressionRule budget precedence) fun expr last =>
      ExprFrom stream expr first last :=
  (h.operand ha).bind fun _ _ _ hleft => h.operators ha hleft

/-! ### Statements -/

theorem binding (hword : stream.Has first .letWord) :
    Walks stream budget first inner.binding fun stmt last =>
      Terminated stream stmt first last := by
  refine walks_current (walks_expectPeek fun hident => walks_current ?_)
  refine walks_expectPeek fun hassign => walks_advance ?_
  refine (h.expression _ _).bind fun value stop hstop hvalue => ?_
  refine skipSemicolon_derives.bind fun _ last _ hlast => walks_pure ⟨stop, ?_, hlast⟩
  rw [hvalue.span_eq, stream.span_tokenAt, ha.merge_between (by omega) (by omega)]
  exact .bind hword hident hassign hvalue

theorem giving (hword : stream.Has first .returnWord) :
    Walks stream budget first inner.giving fun stmt last =>
      Terminated stream stmt first last := by
  refine walks_current (walks_get fun _ _ => walks_ite (fun _ => ?_) fun _ => ?_)
  · exact skipSemicolon_derives.bind fun _ last _ hlast => walks_pure ⟨first, .retNull hword, hlast⟩
  · refine walks_advance ((h.expression _ _).bind fun value stop hstop hvalue => ?_)
    refine skipSemicolon_derives.bind fun _ last _ hlast => walks_pure ⟨stop, ?_, hlast⟩
    rw [hvalue.span_eq, stream.span_tokenAt, ha.merge_between (by omega) (by omega)]
    exact .ret hword hvalue

omit ha in
theorem evaluation : Walks stream budget first inner.evaluation fun stmt last =>
    Terminated stream stmt first last := by
  refine (h.expression _ _).bind fun value stop _ hvalue => ?_
  refine skipSemicolon_derives.bind fun _ last _ hlast => walks_pure ⟨stop, ?_, hlast⟩
  rw [hvalue.span_eq]
  exact .expr hvalue

theorem statement : Walks stream budget first inner.statement fun stmt last =>
    Terminated stream stmt first last := by
  refine Walks.rule (walks_current ?_) _
  split
  next hword => exact (h.binding ha hword).rule _
  next hword => exact (h.giving ha hword).rule _
  · exact h.evaluation.rule _

/-- The statements of a block are read up to its closing brace or the end. There are rounds enough
for all the tokens before the end. -/
theorem blockStatements {statements : List Stmt}
    (hread : Sequence stream (StmtFrom stream) statements.reverse start first)
    (hrounds : stream.pending.length ≤ first + rounds) :
    Walks stream budget first (inner.blockStatements statements rounds) fun result last =>
      Sequence stream (StmtFrom stream) result.reverse start last ∧
        (stream.Has last .rightBrace ∨ stream.Has last .eof) := by
  induction rounds generalizing statements first with
  | zero => exact walks_pure ⟨hread, .inr (ha.ends first hrounds)⟩
  | succ rounds ih =>
    refine walks_current ?_
    split
    next hclose => exact walks_pure ⟨hread, .inl hclose⟩
    next hend => exact walks_pure ⟨hread, .inr hend⟩
    next hsemicolon => exact walks_advance (ih (hread.semicolon hsemicolon) (by omega))
    · refine (h.statement ha).bind fun stmt mid hmid hstmt => walks_advance ?_
      exact ih (hread.snoc hstmt) (by omega)

theorem blockRule : Walks stream budget first (inner.blockRule budget) fun block last =>
    BlockFrom stream block first last := by
  refine walks_of_budget fun hbudget => walks_current (walks_expectCurrent fun hopen => ?_)
  refine walks_advance ((h.blockStatements ha .nil (by omega)).bind ?_)
  intro statements last hlast hread
  refine walks_currentIs (walks_ite (fun _ => walks_failAtCurrent _) fun hne => ?_)
  refine walks_current (walks_pure ?_)
  have hclose : stream.Has last .rightBrace :=
    hread.2.resolve_right fun hend => Bool.noConfusion (hne.symm.trans (beq_iff_eq.mpr hend))
  rw [ha.merge_tokens (by omega)]
  exact .mk hopen hread.1 hclose

/-- The statements of a program are read up to its end. -/
theorem statements {read : List Stmt}
    (hread : Sequence stream (StmtFrom stream) read.reverse start first)
    (hrounds : stream.pending.length ≤ first + rounds) :
    Walks stream budget first (Parser.statements inner read rounds) fun result last =>
      Sequence stream (StmtFrom stream) result.reverse start last ∧ stream.Has last .eof := by
  induction rounds generalizing read first with
  | zero => exact walks_pure ⟨hread, ha.ends first hrounds⟩
  | succ rounds ih =>
    refine walks_current ?_
    split
    next hend => exact walks_pure ⟨hread, hend⟩
    next hsemicolon => exact walks_advance (ih (hread.semicolon hsemicolon) (by omega))
    · refine (h.statement ha).bind fun stmt mid hmid hstmt => walks_advance ?_
      exact ih (hread.snoc hstmt) (by omega)

end

end Derives

/-- The rules with some levels left are made from those with one level less. -/
theorem derives_at (ha : stream.Ascending) (budget levels : Nat) :
    Derives ⟨expressionAt budget levels, blockAt budget levels⟩ stream budget := by
  induction levels with
  | zero =>
    constructor
    · intro _ _ _ _ _ _ _ hr
      cases hr
    · intro _ _ _ _ _ _ hr
      cases hr
  | succ levels ih =>
    constructor
    · exact fun precedence first => ((ih.expressionRule ha precedence).rule _).nested
    · exact fun first => ((ih.blockRule ha).rule _).nested

end Nested

/-! ### Whole sources -/

/-- When the rule starts, the current token is the first one of the expression that it reads, and
when it stops, the last one. -/
def Parse.Delimits (stream : TokenStream) (step : Parse Expr) : Prop :=
  ∀ parser first expr after, parser.StandsAt stream first → step parser = (.ok expr, after) →
    ∃ last, parser.current = stream.tokenAt first ∧ after.current = stream.tokenAt last ∧
      ExprFrom stream expr first last ∧ after.StandsAt stream last

/-- The rounds that a parser has are enough for the tokens from its place on. -/
theorem Parser.StandsAt.le_roundsLeft {parser : Parser} {stream : TokenStream} {place : Nat}
    (h : parser.StandsAt stream place) :
    stream.pending.length ≤ place + parser.roundsLeft := by
  rw [Parser.roundsLeft, h.draws, List.length_drop]
  omega

theorem Parse.delimits_expressionAt {stream : TokenStream} (ha : stream.Ascending)
    {budget : Nat} (hbudget : stream.pending.length ≤ budget) (levels : Nat)
    (precedence : Precedence) : Delimits stream (expressionAt budget levels precedence) := by
  intro parser first expr after hat hr
  obtain ⟨last, -, hafter, hexpr⟩ := (Nested.derives_at ha budget levels).expression precedence
    first (Nat.le_add_left_of_le hbudget) parser expr after hat hr
  exact ⟨last, hat.current_eq, hafter.current_eq, hexpr, hafter⟩

theorem Parser.delimits_parseExpression {stream : TokenStream} (ha : stream.Ascending)
    (precedence : Precedence) : Delimits stream (parseExpression precedence) := by
  intro parser first expr after hat hr
  obtain ⟨last, -, hafter, hexpr⟩ := (Nested.derives_at ha _ _).expression precedence first
    hat.le_roundsLeft parser expr after hat hr
  exact ⟨last, hat.current_eq, hafter.current_eq, hexpr, hafter⟩

/-- A program is derived from the tokens that its parser stands before. -/
theorem Parser.exact_of_parseProgram {stream : TokenStream} (ha : stream.Ascending)
    {parser after : Parser} {tree : Program} (hat : parser.StandsAt stream 0)
    (h : parseProgram parser = (.ok tree, after)) : tree.Exact stream := by
  have hraise : raiseFault parser = (.ok (), parser) := by rw [raiseFault, hat.fault_eq]
  rw [parseProgram, Attempt.bind_of_ok hraise] at h
  obtain ⟨_, _, hget, h⟩ := Attempt.bind_eq_ok h
  cases hget
  obtain ⟨read, between, hread, hlast⟩ := Attempt.bind_eq_ok h
  cases hlast
  have hinner := Nested.derives_at ha parser.roundsLeft parser.levelsLeft
  obtain ⟨last, -, -, hsequence, hend⟩ :=
    hinner.statements ha .nil hat.le_roundsLeft hat.le_roundsLeft parser read between hat hread
  exact Program.exact_of_sequence ha hsequence hend

/-- A source shorter than 4 GiB that is parsed gives a tree with exact spans, and wherever an
expression is read, it starts and stops on the first and the last of its tokens. -/
theorem Program.exact_of_parse {source : String} {maxDepth : Nat} {journal : Journal}
    {tree : Program} (hsize : source.utf8ByteSize < UInt32.size)
    (h : (parse source maxDepth journal).1 = .ok tree) :
    tree.Exact (TokenStream.ofString source) ∧
      (∀ precedence, Delimits (TokenStream.ofString source) (Parser.parseExpression precedence)) ∧
      ∀ budget levels precedence, (TokenStream.ofString source).pending.length ≤ budget →
        Delimits (TokenStream.ofString source) (expressionAt budget levels precedence) := by
  have ha := TokenStream.ascending_ofString hsize
  refine ⟨?_, Parser.delimits_parseExpression ha,
    fun _ levels precedence hbudget => delimits_expressionAt ha hbudget levels precedence⟩
  have hstands := @Parser.standsAt_ofStream (TokenStream.ofString source) maxDepth journal
  unfold parse Parser.ofString at h
  generalize Parser.ofStream (TokenStream.ofString source) maxDepth journal = parser at h hstands
  have hparse : Parser.parseProgram parser = (.ok tree, (Parser.parseProgram parser).2) :=
    Prod.ext h rfl
  cases hfault : parser.fault with
  | none => exact Parser.exact_of_parseProgram ha (hstands hfault) hparse
  | some found =>
    -- A fault in the first two tokens is raised before anything is read.
    obtain ⟨_, _, hraise, -⟩ := Attempt.bind_eq_ok hparse
    rw [raiseFault, hfault] at hraise
    cases hraise

/-- The parentheses belong to the sum, the braces to the block, and the semicolon to nothing. -/
theorem Program.exact_of_parse_group :
    let text := "if (a) \x7b f((a + 1)); \x7d"
    let tree : Program := ⟨[.expr (.ifThen (.ident "a" ⟨4, 5⟩)
      (.mk [.expr (.call (.ident "f" ⟨9, 10⟩)
        [.binary .add (.ident "a" ⟨12, 13⟩) (.integer 1 ⟨16, 17⟩) ⟨11, 18⟩] ⟨9, 19⟩) ⟨9, 19⟩]
        ⟨7, 22⟩) ⟨0, 22⟩) ⟨0, 22⟩]⟩
    (parse text 64 (.opened .off)).1 = .ok tree ∧ tree.Exact (.ofString text) := by
  intro text tree
  have h : (parse text 64 (.opened .off)).1 = .ok tree := by decide +kernel +zetaReduce
  exact ⟨h, (exact_of_parse (by decide) h).1⟩

end Simian
