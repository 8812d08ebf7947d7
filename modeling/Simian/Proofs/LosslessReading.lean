import Simian.Proofs.TakenWords
import Simian.Proofs.TreeRenderings

/-!
# Nothing is lost in reading

Each rule reads a tree that stands for the words it took: those it left behind and the one it
stopped on. For an expression it matters also what comes next. A word that binds more tightly
than the rule's operators would belong to the expression, and none does (`Expr.Covers`). The
operators of a level are taken in one after the other, and each finds an operand on its left
that holds together tightly enough, since otherwise an operand further in would have taken it.
-/
namespace Simian

open Parse Word

theorem Word.eq_name {word : Word} {token : Token} (h : token.word = word)
    (hk : word.kind = .ident) : word = name token.literal := by
  subst h
  exact congrArg (fun kind => Word.mk kind token.literal) hk

/-- What is known of words up to one of them is of use also where others follow. -/
theorem Word.followed {passed words : List Word} {word : Word} (h : passed ++ [word] = words)
    (more : List Word) : passed ++ word :: more = words ++ more := by
  rw [← h, List.append_assoc, List.singleton_append]

/-- How tightly the word behind the first one binds to an operand before it. -/
def pull (words : Stream' Word) : Nat := (Precedence.ofKind words.tail.head.kind).rank

theorem Precedence.rank_le_call (precedence : Precedence) : precedence.rank ≤ call.rank := by
  cases precedence <;> decide

/-- The expression stands for the words passed and the one after them, it holds together as
tightly as `least` says, and the word behind it does not bind more tightly than `most`. -/
structure Expr.Covers (least most : Nat) (expr : Expr) (passed : List Word)
    (rest : Stream' Word) : Prop where
  rendered : expr.Rendered least (passed ++ [rest.head])
  free : pull rest ≤ most

theorem Expr.Unwrapped.of_eq {expr : Expr} {words all : List Word} (h : expr.Unwrapped words)
    (he : all = words) : expr.Unwrapped all := by
  rwa [he]

/-- An operand that no operator can split. -/
theorem Expr.Unwrapped.covers {expr : Expr} {passed : List Word} {rest : Stream' Word}
    (h : expr.Unwrapped (passed ++ [rest.head])) (hs : expr.strength = .call) :
    expr.Covers Precedence.call.rank Precedence.call.rank passed rest := by
  constructor
  · exact .plain (by rw [hs]) h
  · exact Precedence.rank_le_call _

theorem BumpOp.kind_of_ofKind? {kind : Token.Kind} {op : BumpOp} (h : ofKind? kind = some op) :
    kind = op.kind := by
  unfold ofKind? at h
  split at h <;> cases h <;> rfl

theorem BinaryOp.kind_of_ofKind? {kind : Token.Kind} {op : BinaryOp} (h : ofKind? kind = some op) :
    kind = op.kind := by
  unfold ofKind? at h
  split at h <;> cases h <;> rfl

theorem LogicalOp.kind_of_ofKind? {kind : Token.Kind} {op : LogicalOp}
    (h : ofKind? kind = some op) : kind = op.kind := by
  unfold ofKind? at h
  split at h <;> cases h <;> rfl

/-- The statement stands for the words, the last of which may be a semicolon behind it. -/
def Stmt.Closes (stmt : Stmt) (words : List Word) : Prop :=
  ∃ own, stmt.Rendered own ∧ (words = own ∨ words = own ++ [sign .semicolon])

namespace Nested

/-- What the rules read for the inside stands for the words that they take. -/
structure Lossless (inner : Nested) (budget : Nat) : Prop where
  expression : ∀ precedence words, (inner.expression precedence).Takes budget words
    (Expr.Covers (min (precedence.rank + 1) Precedence.unary.rank) precedence.rank)
  block : ∀ words, inner.block.Takes budget words fun block passed rest =>
    block.Rendered (passed ++ [rest.head])

variable {inner : Nested} {budget rounds : Nat} {words : Stream' Word}

theorem moreParameters_takes {read : List String} :
    (moreParameters read rounds).Takes budget words fun result passed rest =>
      ∃ later, result = later.reverse ++ read ∧
        passed ++ [rest.head] = words.head :: moreNames later := by
  induction rounds generalizing read words with
  | zero => exact takes_pure ⟨[], rfl, rfl⟩
  | succ rounds ih =>
    refine takes_peekIs (takes_ite (fun hcomma => ?_) fun _ => takes_pure ⟨[], rfl, rfl⟩)
    refine takes_advance fun hspelt => takes_expectPeek fun hident _ => ?_
    refine takes_current fun token htoken _ => ?_
    have hsign := hspelt.eq_sign (beq_iff_eq.mp hcomma) rfl
    have hname := eq_name htoken hident
    dsimp only
    split
    · exact takes_failAtCurrent _
    · refine ih.mono fun result passed rest hpost => ?_
      obtain ⟨later, rfl, hwords⟩ := hpost
      refine ⟨token.literal :: later, ?_, ?_⟩
      · rw [List.reverse_cons, List.append_assoc, List.singleton_append]
      · rw [List.cons_append, List.cons_append, hwords, hsign, hname]
        rfl

theorem parameters_takes : (parameters rounds).Takes budget words fun result passed rest =>
    passed ++ [rest.head] = words.head :: (names result ++ [sign .rightParen]) := by
  refine takes_peekIs (takes_ite (fun hclose => ?_) fun _ => ?_)
  · refine takes_advance fun hspelt => takes_pure ?_
    rw [List.singleton_append, hspelt.eq_sign (beq_iff_eq.mp hclose) rfl]
    rfl
  · refine takes_expectPeek fun hident _ => takes_current fun token htoken _ => ?_
    have hname := eq_name htoken hident
    refine moreParameters_takes.bind fun result passed rest hpost => ?_
    obtain ⟨later, rfl, hwords⟩ := hpost
    refine takes_expectPeek fun hclose hspelt => takes_pure ?_
    rw [hspelt.eq_sign hclose rfl, List.cons_append, hwords, hname, List.reverse_append,
      List.reverse_reverse]
    rfl

/-- What a function literal has behind its name, or behind `fn` if it has no name. -/
def functionTail (inner : Nested) (rounds : Nat) (start : Span) (name : Option String) :
    Parse Expr := do
  expectPeek .leftParen
  let names ← rule "Parameters" (parameters rounds)
  expectPeek .leftBrace
  let body ← inner.block
  pure (.function name names body (start.merge (← current).span))

namespace Lossless

/-- An expression between two marks, where any expression may stand. -/
theorem inside (h : inner.Lossless budget) (words : Stream' Word) :
    (inner.expression .lowest).Takes budget words fun expr passed rest =>
      expr.Rendered 0 (passed ++ [rest.head]) :=
  (h.expression .lowest words).mono fun _ _ _ hexpr => hexpr.rendered.mono (Nat.zero_le _)

theorem moreItems (h : inner.Lossless budget) {items : List Expr} :
    (inner.moreItems items rounds).Takes budget words fun result passed rest =>
      ∃ later more, result = later.reverse ++ items ∧ MoreItemsRendered later more ∧
        passed ++ [rest.head] = words.head :: more := by
  induction rounds generalizing items words with
  | zero => exact takes_pure ⟨[], [], rfl, .nil, rfl⟩
  | succ rounds ih =>
    refine takes_peekIs (takes_ite (fun hcomma => ?_) fun _ =>
      takes_pure ⟨[], [], rfl, .nil, rfl⟩)
    refine takes_advance fun hspelt => takes_advance fun _ => ?_
    refine (h.inside _).bind fun item passed rest hitem => ?_
    refine ih.mono fun result others last hpost => ?_
    obtain ⟨later, more, rfl, hmore, hwords⟩ := hpost
    refine ⟨item :: later, _, ?_, .cons hitem hmore, ?_⟩
    · rw [List.reverse_cons, List.append_assoc, List.singleton_append]
    · rw [List.cons_append, List.cons_append, List.append_assoc, hwords,
        hspelt.eq_sign (beq_iff_eq.mp hcomma) rfl, List.append_assoc, List.singleton_append]

/-- Expressions up to the closing mark, after whatever mark opens them. -/
theorem items (h : inner.Lossless budget) {closing : Token.Kind} (hk : isFixed closing = true) :
    (inner.items rounds closing).Takes budget words fun result passed rest =>
      ∃ between, ItemsRendered result between ∧
        passed ++ [rest.head] = words.head :: (between ++ [sign closing]) := by
  refine takes_peekIs (takes_ite (fun hclose => ?_) fun _ => ?_)
  · refine takes_advance fun hspelt => takes_pure ⟨[], .none, ?_⟩
    rw [hspelt.eq_sign (beq_iff_eq.mp hclose) hk]
    rfl
  · refine takes_advance fun _ => (h.inside _).bind fun first passed rest hfirst => ?_
    refine h.moreItems.bind fun result others last hpost => ?_
    obtain ⟨later, more, rfl, hmore, hwords⟩ := hpost
    refine takes_expectPeek fun hclose hspelt => takes_pure ?_
    rw [List.reverse_append, List.reverse_reverse]
    refine ⟨_, .some hfirst hmore, ?_⟩
    simp [hspelt.eq_sign hclose hk, followed hwords]

theorem entry (h : inner.Lossless budget) :
    inner.entry.Takes budget words fun result passed rest =>
      ∃ between, EntryRendered result between ∧ passed ++ [rest.head] = words.head :: between := by
  refine takes_advance fun _ => (h.inside _).bind fun key passed rest hkey => ?_
  refine takes_expectPeek fun hcolon hspelt => takes_advance fun _ => ?_
  refine (h.inside _).bind fun value more last hvalue => takes_pure ⟨_, .mk hkey hvalue, ?_⟩
  simp only [List.cons_append, List.append_assoc, List.nil_append, List.append_nil,
    hspelt.eq_sign hcolon rfl]

theorem moreEntries (h : inner.Lossless budget) {entries : List (Expr × Expr)} :
    (inner.moreEntries entries rounds).Takes budget words fun result passed rest =>
      ∃ later more, result = later.reverse ++ entries ∧ MoreEntriesRendered later more ∧
        passed ++ [rest.head] = words.head :: more := by
  induction rounds generalizing entries words with
  | zero => exact takes_pure ⟨[], [], rfl, .nil, rfl⟩
  | succ rounds ih =>
    refine takes_peekIs (takes_ite (fun hcomma => ?_) fun _ =>
      takes_pure ⟨[], [], rfl, .nil, rfl⟩)
    refine takes_advance fun hspelt => h.entry.bind fun entry passed rest hentry => ?_
    obtain ⟨between, hentry, hfirst⟩ := hentry
    refine ih.mono fun result others last hpost => ?_
    obtain ⟨later, more, rfl, hmore, hwords⟩ := hpost
    refine ⟨entry :: later, _, ?_, .cons hentry hmore, ?_⟩
    · rw [List.reverse_cons, List.append_assoc, List.singleton_append]
    · rw [List.cons_append, List.append_assoc, hwords, List.append_cons, hfirst,
        hspelt.eq_sign (beq_iff_eq.mp hcomma) rfl]
      rfl

theorem hash (h : inner.Lossless budget) (hw : words.head = sign .leftBrace) :
    (inner.hash rounds).Takes budget words fun expr passed rest =>
      expr.Unwrapped (passed ++ [rest.head]) ∧ expr.strength = .call := by
  refine takes_current fun start _ _ => takes_peekIs (takes_ite (fun _ => ?_) fun _ => ?_)
  · refine takes_expectPeek fun hclose hspelt => takes_current fun last _ _ => ?_
    refine takes_pure ⟨?_, rfl⟩
    rw [hw, hspelt.eq_sign hclose rfl]
    exact .hash .none
  · refine h.entry.bind fun first passed rest hfirst => ?_
    obtain ⟨between, hfirst, hbetween⟩ := hfirst
    refine h.moreEntries.bind fun entries others last hpost => ?_
    obtain ⟨later, more, rfl, hmore, hwords⟩ := hpost
    refine takes_expectPeek fun hclose hspelt => takes_current fun _ _ _ => ?_
    rw [List.reverse_append, List.reverse_reverse]
    refine takes_pure ⟨.of_eq (.hash (.some hfirst hmore)) ?_, rfl⟩
    simp [enclosed, hw, hspelt.eq_sign hclose rfl, followed hbetween, followed hwords]

theorem conditional (h : inner.Lossless budget) (hw : words.head = sign .ifWord) :
    inner.conditional.Takes budget words fun expr passed rest =>
      expr.Unwrapped (passed ++ [rest.head]) ∧ expr.strength = .call := by
  refine takes_current fun start _ _ => takes_expectPeek fun hopen hopens => ?_
  refine takes_advance fun _ => (h.inside _).bind fun condition passed rest hcondition => ?_
  refine takes_expectPeek fun hclose hcloses => takes_expectPeek fun _ _ => ?_
  have hparens : words.tail.head = sign .leftParen ∧ rest.tail.head = sign .rightParen :=
    ⟨hopens.eq_sign hopen rfl, hcloses.eq_sign hclose rfl⟩
  refine (h.block _).bind fun thenBlock more mid hthen => ?_
  refine takes_peekIs (takes_ite (fun helse => ?_) fun _ => ?_)
  · refine takes_advance fun helses => takes_expectPeek fun _ _ => ?_
    refine (h.block _).bind fun elseBlock others last hblock => takes_current fun _ _ _ => ?_
    refine takes_pure ⟨.of_eq (.ifElse hcondition hthen hblock) ?_, rfl⟩
    simp [enclosed, hw, hparens, helses.eq_sign (beq_iff_eq.mp helse) rfl]
  · refine takes_current fun _ _ _ => takes_pure ⟨.of_eq (.ifThen hcondition hthen) ?_, rfl⟩
    simp [enclosed, hw, hparens]

theorem functionTail (h : inner.Lossless budget) {start : Span} {named : Option String} :
    (inner.functionTail rounds start named).Takes budget words fun expr passed rest =>
      ∃ names body span more, expr = .function named names body span ∧ names.Nodup ∧
        body.Rendered more ∧
          passed ++ [rest.head] = words.head :: (inParens (Word.names names) ++ more) := by
  refine takes_expectPeek fun hopen hopens => ?_
  refine ((parameters_takes.ensuring parameters_nodup).rule _).bind
    fun names passed rest hnames => ?_
  obtain ⟨hnodup, hwords⟩ := hnames
  refine takes_expectPeek fun _ _ => (h.block _).bind fun body more last hbody => ?_
  refine takes_current fun _ _ _ => takes_pure ⟨names, body, _, _, rfl, hnodup, hbody, ?_⟩
  simp [enclosed, hopens.eq_sign hopen rfl, followed hwords]

theorem function (h : inner.Lossless budget) (hw : words.head = sign .fnWord) :
    (inner.function rounds).Takes budget words fun expr passed rest =>
      expr.Unwrapped (passed ++ [rest.head]) ∧ expr.strength = .call := by
  refine takes_current fun start _ _ => takes_peekIs (takes_ite (fun hident => ?_) fun _ => ?_)
  · refine takes_advance fun _ => takes_current fun token htoken _ => takes_pure_bind ?_
    refine h.functionTail.mono fun expr passed rest htail => ?_
    obtain ⟨names, body, span, more, rfl, hnodup, hbody, hwords⟩ := htail
    refine ⟨.of_eq (.function hnodup hbody) ?_, rfl⟩
    simp [hw, followed hwords, ← eq_name htoken (beq_iff_eq.mp hident)]
  · refine takes_pure_bind (h.functionTail.mono fun expr passed rest htail => ?_)
    obtain ⟨names, body, span, more, rfl, hnodup, hbody, hwords⟩ := htail
    refine ⟨.of_eq (.function hnodup hbody) ?_, rfl⟩
    simp [hw, followed hwords]

theorem unary (h : inner.Lossless budget) {op : UnaryOp} (hw : words.head = sign op.kind) :
    (inner.unary op).Takes budget words
      (Expr.Covers Precedence.unary.rank Precedence.unary.rank) := by
  refine takes_current fun start _ _ => takes_advance fun _ => ?_
  refine (h.expression _ _).bind fun operand passed rest hoperand => takes_pure ?_
  constructor
  · refine .plain (Nat.le_refl _) (.of_eq (.unary (hoperand.rendered.mono (by decide))) ?_)
    simp [hw]
  · exact hoperand.free

theorem group (h : inner.Lossless budget) (hw : words.head = sign .leftParen) :
    inner.group.Takes budget words
      (Expr.Covers Precedence.call.rank Precedence.call.rank) := by
  refine takes_current fun start _ _ => takes_advance fun _ => ?_
  refine (h.inside _).bind fun expr passed rest hexpr => takes_expectPeek fun hclose hspelt => ?_
  refine takes_current fun last _ _ => takes_pure ?_
  constructor
  · rw [hw, hspelt.eq_sign hclose rfl]
    exact (Expr.Rendered.group hexpr).withSpan _
  · exact Precedence.rank_le_call _

theorem array (h : inner.Lossless budget) (hw : words.head = sign .leftBracket) :
    (inner.array rounds).Takes budget words fun expr passed rest =>
      expr.Unwrapped (passed ++ [rest.head]) ∧ expr.strength = .call := by
  refine takes_current fun start _ _ => (h.items rfl).bind fun elements passed rest hitems => ?_
  obtain ⟨between, hbetween, hwords⟩ := hitems
  refine takes_current fun _ _ _ => takes_pure ⟨.of_eq (.array hbetween) ?_, rfl⟩
  simp [enclosed, hwords, hw]

/-- An operand holds together as tightly as the word behind it may pull, and at least as tightly
as one with an operator in front. -/
theorem operand (h : inner.Lossless budget) :
    (inner.operand rounds).Takes budget words fun expr passed rest =>
      ∃ tight, Precedence.unary.rank ≤ tight ∧ expr.Covers tight tight passed rest := by
  have hclosed : ∀ {step : Parse Expr}, step.Takes budget words (fun expr passed rest =>
      expr.Unwrapped (passed ++ [rest.head]) ∧ expr.strength = .call) →
      step.Takes budget words fun expr passed rest =>
        ∃ tight, Precedence.unary.rank ≤ tight ∧ expr.Covers tight tight passed rest :=
    fun hstep => hstep.mono fun expr passed rest hexpr =>
      ⟨_, by decide, hexpr.1.covers hexpr.2⟩
  refine takes_current fun token htoken hspelt => ?_
  have hkind : words.head.kind = token.kind := congrArg Word.kind htoken.symm
  split
  next hident =>
    refine hclosed (takes_pure ⟨?_, rfl⟩)
    rw [eq_name htoken (hkind.trans hident)]
    exact .ident
  next hint =>
    split
    next value hvalue =>
      refine hclosed (takes_pure ⟨?_, rfl⟩)
      rw [← htoken, Token.word, hint]
      exact .integer (Numeral.denotes_of_read? hvalue)
    · exact takes_failAtCurrent _
  next htrue =>
    refine hclosed (takes_pure ⟨?_, rfl⟩)
    rw [hspelt.eq_sign (hkind.trans htrue) rfl]
    exact .boolean
  next hfalse =>
    refine hclosed (takes_pure ⟨?_, rfl⟩)
    rw [hspelt.eq_sign (hkind.trans hfalse) rfl]
    exact .boolean
  next hstring =>
    refine hclosed (takes_pure ⟨?_, rfl⟩)
    rw [← htoken, Token.word, hstring]
    exact .string
  next hminus =>
    have hsign : words.head = sign UnaryOp.negate.kind := hspelt.eq_sign (hkind.trans hminus) rfl
    refine ((h.unary hsign).rule _).mono ?_
    exact fun expr passed rest hexpr => ⟨_, Nat.le_refl _, hexpr⟩
  next hbang =>
    have hsign : words.head = sign UnaryOp.invert.kind := hspelt.eq_sign (hkind.trans hbang) rfl
    refine ((h.unary hsign).rule _).mono ?_
    exact fun expr passed rest hexpr => ⟨_, Nat.le_refl _, hexpr⟩
  next hopen =>
    refine ((h.group (hspelt.eq_sign (hkind.trans hopen) rfl)).rule _).mono ?_
    exact fun expr passed rest hexpr => ⟨_, by decide, hexpr⟩
  next hif => exact hclosed ((h.conditional (hspelt.eq_sign (hkind.trans hif) rfl)).rule _)
  next hfn => exact hclosed ((h.function (hspelt.eq_sign (hkind.trans hfn) rfl)).rule _)
  next hopen => exact hclosed ((h.array (hspelt.eq_sign (hkind.trans hopen) rfl)).rule _)
  next hopen => exact hclosed ((h.hash (hspelt.eq_sign (hkind.trans hopen) rfl)).rule _)
  · exact takes_failAtCurrent _

theorem joined (h : inner.Lossless budget) {left : Expr} {join : Expr → Expr → Span → Expr} :
    (inner.joined left join).Takes budget words fun expr passed rest =>
      ∃ right span more, expr = join left right span ∧ passed = words.head :: more ∧
        right.Covers (min ((Precedence.ofKind words.head.kind).rank + 1) Precedence.unary.rank)
          (Precedence.ofKind words.head.kind).rank more rest := by
  refine takes_current fun token htoken _ => takes_advance fun _ => ?_
  refine (h.expression _ _).bind fun right more rest hright => takes_pure ?_
  rw [← htoken]
  exact ⟨right, _, more, rfl, by rw [List.append_nil], hright⟩

theorem call (h : inner.Lossless budget) {callee : Expr} :
    (inner.call rounds callee).Takes budget words fun expr passed rest =>
      ∃ arguments span more, expr = .call callee arguments span ∧ ItemsRendered arguments more ∧
        passed ++ [rest.head] = words.head :: (more ++ [sign .rightParen]) := by
  refine (h.items rfl).bind fun arguments passed rest hitems => takes_current fun _ _ _ => ?_
  obtain ⟨more, hmore, hwords⟩ := hitems
  exact takes_pure ⟨arguments, _, more, rfl, hmore, by rwa [List.append_nil]⟩

theorem index (h : inner.Lossless budget) {collection : Expr} :
    (inner.index collection).Takes budget words fun expr passed rest =>
      ∃ key span more, expr = .index collection key span ∧ key.Rendered 0 more ∧
        passed ++ [rest.head] = words.head :: (more ++ [sign .rightBracket]) := by
  refine takes_advance fun _ => (h.inside _).bind fun key passed rest hkey => ?_
  refine takes_expectPeek fun hclose hspelt => takes_current fun _ _ _ => ?_
  refine takes_pure ⟨key, _, _, rfl, hkey, ?_⟩
  simp [hspelt.eq_sign hclose rfl]

end Lossless

/-! ### Operators -/

namespace Lossless

variable {left : Expr} {least : Nat} {front : List Word}

/-- An operator between operands, the left of which has been read up to the current word. -/
theorem operation (h : inner.Lossless budget) (hleft : left.Rendered least (front ++ [words.head]))
    (hpull : pull words ≤ least) {kind : Token.Kind} (hkind : words.tail.head.kind = kind)
    (hfixed : isFixed kind = true)
    (hrank : (Precedence.ofKind kind).rank + 1 ≤ Precedence.unary.rank)
    {join : Expr → Expr → Span → Expr}
    (hstrength : ∀ right span, (join left right span).strength = .ofKind kind)
    (hjoin : ∀ right span words more, left.Rendered (Precedence.ofKind kind).rank words →
      right.Rendered ((Precedence.ofKind kind).rank + 1) more →
        (join left right span).Unwrapped (words ++ sign kind :: more)) :
    Takes (advance >>= fun _ => rule "Infix" (inner.joined left join)) budget words
      fun expr passed rest => passed ≠ [] ∧
        ∃ tight, pull words ≤ tight ∧ expr.Covers tight tight (front ++ passed) rest := by
  subst hkind
  refine takes_advance fun hspelt => (h.joined.rule _).mono fun expr passed rest hexpr => ?_
  obtain ⟨right, span, more, rfl, rfl, hright⟩ := hexpr
  refine ⟨List.cons_ne_nil _ _, pull words, Nat.le_refl _, ?_, hright.free⟩
  have hmore := hright.rendered
  rw [Nat.min_eq_left hrank] at hmore
  refine .plain (Nat.le_of_eq (congrArg Precedence.rank (hstrength right span).symm)) ?_
  refine .of_eq (hjoin right span _ _ (hleft.mono hpull) hmore) ?_
  rw [← hspelt.eq_sign rfl hfixed]
  simp

/-- Whatever operator comes next takes in what has been read as its left operand. -/
theorem operator? (h : inner.Lossless budget) (hleft : left.Rendered least (front ++ [words.head]))
    (hpull : pull words ≤ least) {step : Parse Expr}
    (hs : inner.operator? rounds left words.tail.head.kind = some step) :
    step.Takes budget words fun expr passed rest => passed ≠ [] ∧
      ∃ tight, pull words ≤ tight ∧ expr.Covers tight tight (front ++ passed) rest := by
  have htight : pull words ≤ Precedence.call.rank := Precedence.rank_le_call _
  have htrailing (hle : Precedence.unary.rank + 1 ≤ pull words) :
      left.Rendered (Precedence.unary.rank + 1) (front ++ [words.head]) :=
    hleft.mono (Nat.le_trans hle hpull)
  unfold Nested.operator? at hs
  split at hs
  next op hop =>
    cases hs
    have hkind := BumpOp.kind_of_ofKind? hop
    have hoperand := htrailing (by rw [pull, hkind]; cases op <;> decide)
    refine takes_advance fun hspelt => takes_current fun _ _ _ => takes_pure ?_
    refine ⟨List.cons_ne_nil _ _, _, htight, Expr.Unwrapped.covers ?_ rfl⟩
    refine .of_eq (.bump hoperand) ?_
    simp [hspelt.eq_sign hkind op.isFixed_kind]
  next op hop _ =>
    cases hs
    exact h.operation hleft hpull (BinaryOp.kind_of_ofKind? hop) op.isFixed_kind
      (by cases op <;> decide) (fun _ _ => rfl) fun _ _ _ _ => .binary
  next op hop _ _ =>
    cases hs
    exact h.operation hleft hpull (LogicalOp.kind_of_ofKind? hop) op.isFixed_kind
      (by cases op <;> decide) (fun _ _ => rfl) fun _ _ _ _ => .logical
  next =>
    split at hs
    next hopen =>
      cases hs
      have hcallee := htrailing (by rw [pull, hopen]; decide)
      refine takes_advance fun hspelt => (h.call.rule _).mono fun expr passed rest hexpr => ?_
      obtain ⟨arguments, span, more, rfl, hmore, hwords⟩ := hexpr
      refine ⟨List.cons_ne_nil _ _, _, htight, Expr.Unwrapped.covers ?_ rfl⟩
      refine .of_eq (.call hcallee hmore) ?_
      simp [enclosed, hwords, hspelt.eq_sign hopen rfl]
    next hopen =>
      cases hs
      have hcollection := htrailing (by rw [pull, hopen]; decide)
      refine takes_advance fun hspelt => (h.index.rule _).mono fun expr passed rest hexpr => ?_
      obtain ⟨key, span, more, rfl, hmore, hwords⟩ := hexpr
      refine ⟨List.cons_ne_nil _ _, _, htight, Expr.Unwrapped.covers ?_ rfl⟩
      refine .of_eq (.index hcollection hmore) ?_
      simp [enclosed, hwords, hspelt.eq_sign hopen rfl]
    next => cases hs

/-- A word that is no operator binds most weakly. -/
theorem pull_of_operator?_eq_none
    (h : inner.operator? rounds left words.tail.head.kind = none) : pull words = 0 := by
  unfold pull
  generalize words.tail.head.kind = kind at h ⊢
  cases kind <;> first | rfl | cases h

/-- Operators end where nothing binds more tightly than the rule's. -/
theorem takes_pure_left {precedence : Precedence}
    (hleft : left.Rendered least (front ++ [words.head]))
    (hleast : min (precedence.rank + 1) Precedence.unary.rank ≤ least)
    (hfree : pull words ≤ precedence.rank) :
    Takes (pure left) budget words fun expr passed rest =>
      expr.Covers (min (precedence.rank + 1) Precedence.unary.rank) precedence.rank
        (front ++ passed) rest := by
  refine takes_pure ⟨?_, hfree⟩
  rw [List.append_nil]
  exact hleft.mono hleast

/-- The operators to come are taken in as long as they bind more tightly than the rule's. There
are rounds enough for all the words before the end. -/
theorem operators (h : inner.Lossless budget) {precedence : Precedence} {atMost : Nat}
    (hleft : left.Rendered least (front ++ [words.head])) (hpull : pull words ≤ least)
    (hleast : min (precedence.rank + 1) Precedence.unary.rank ≤ least)
    (hrounds : ∀ place, rounds < place → (words.get place).kind = .eof) :
    (inner.operators atMost precedence left rounds).Takes budget words fun expr passed rest =>
      expr.Covers (min (precedence.rank + 1) Precedence.unary.rank) precedence.rank
        (front ++ passed) rest := by
  induction rounds generalizing words left least front with
  | zero =>
    refine takes_pure_left hleft hleast ?_
    have hend : words.tail.head.kind = .eof := hrounds 1 (Nat.zero_lt_one)
    rw [pull, hend]
    exact Nat.zero_le _
  | succ rounds ih =>
    refine takes_get fun parser hparser => ?_
    have hpeek : parser.peek.kind = words.tail.head.kind := by
      rw [← hparser]
      rfl
    dsimp only
    rw [hpeek]
    refine takes_ite (fun htighter => ?_) fun hweaker => takes_pure_left hleft hleast ?_
    · rw [Bool.and_eq_true, Precedence.weaker, decide_eq_true_iff] at htighter
      split
      next step hs =>
        refine (h.operator? hleft hpull hs).tracked.bind fun later passed rest hpost => ?_
        obtain ⟨hwords, hne, tight, hle, hcovers⟩ := hpost
        have hlater : ∀ place, rounds < place → (rest.get place).kind = .eof := by
          intro place hplace
          have hlength := List.length_pos_iff.mpr hne
          rw [← Stream'.get_append_right place passed rest, ← hwords]
          exact hrounds _ (by omega)
        have hmin : min (precedence.rank + 1) Precedence.unary.rank ≤ tight :=
          Nat.le_trans (Nat.min_le_left _ _) (Nat.le_trans htighter.2 hle)
        refine (ih hcovers.rendered hcovers.free hmin hlater).mono fun expr more last hexpr => ?_
        rwa [← List.append_assoc]
      next hnone =>
        have hnot := pull_of_operator?_eq_none hnone
        rw [pull] at hnot
        omega
    · rw [Bool.and_eq_false_iff, bne_eq_false_iff_eq, Precedence.weaker,
        decide_eq_false_iff_not] at hweaker
      rw [pull]
      rcases hweaker with hsemicolon | hweaker
      · rw [hsemicolon]
        exact Nat.zero_le _
      · exact Nat.le_of_not_lt hweaker

theorem expressionRule (h : inner.Lossless budget) (precedence : Precedence) :
    (inner.expressionRule budget precedence).Takes budget words
      (Expr.Covers (min (precedence.rank + 1) Precedence.unary.rank) precedence.rank) := by
  refine h.operand.bind fun left passed rest hpost => takes_of_sight fun hsight => ?_
  obtain ⟨tight, hle, hleft⟩ := hpost
  exact h.operators hleft.rendered hleft.free (Nat.le_trans (Nat.min_le_right _ _) hle)
    fun place hplace => hsight.ends place (Nat.le_of_lt hplace)

/-! ### Statements -/

/-- A semicolon behind a statement is taken with it. -/
theorem skipSemicolon_takes : skipSemicolon.Takes budget words fun _ passed rest =>
    passed ++ [rest.head] = [words.head] ∨
      passed ++ [rest.head] = [words.head, sign .semicolon] := by
  refine takes_peekIs (takes_ite (fun hsemicolon => ?_) fun _ => takes_pure (.inl rfl))
  refine advance_takes.mono fun _ passed rest hpost => .inr ?_
  obtain ⟨hspelt, rfl, rfl⟩ := hpost
  rw [hspelt.eq_sign (beq_iff_eq.mp hsemicolon) rfl]
  rfl

theorem binding (h : inner.Lossless budget) (hw : words.head = sign .letWord) :
    inner.binding.Takes budget words fun stmt passed rest =>
      stmt.Closes (passed ++ [rest.head]) := by
  refine takes_current fun start _ _ => takes_expectPeek fun hident _ => ?_
  refine takes_current fun token htoken _ => takes_expectPeek fun hassign hspelt => ?_
  refine takes_advance fun _ => (h.inside _).bind fun value passed rest hvalue => ?_
  refine skipSemicolon_takes.bind fun _ more last hmore => takes_pure ?_
  have hfront : words.tail.head = name token.literal ∧ words.tail.tail.head = sign .assign :=
    ⟨eq_name htoken hident, hspelt.eq_sign hassign rfl⟩
  refine ⟨_, .bind hvalue, hmore.imp (fun hnone => ?_) fun hsome => ?_⟩
  · simp [hw, hfront, hnone]
  · simp [hw, hfront, hsome]

theorem giving (h : inner.Lossless budget) (hw : words.head = sign .returnWord) :
    inner.giving.Takes budget words fun stmt passed rest =>
      stmt.Closes (passed ++ [rest.head]) := by
  refine takes_current fun start _ _ => takes_get fun parser _ =>
    takes_ite (fun _ => ?_) fun _ => ?_
  · refine skipSemicolon_takes.bind fun _ more last hmore => takes_pure ⟨_, .retNull, ?_⟩
    rw [List.append_nil]
    rwa [hw] at hmore
  · refine takes_advance fun _ => (h.inside _).bind fun value passed rest hvalue => ?_
    refine skipSemicolon_takes.bind fun _ more last hmore => takes_pure ?_
    refine ⟨_, .ret hvalue, hmore.imp (fun hnone => ?_) fun hsome => ?_⟩
    · simp [hw, hnone]
    · simp [hw, hsome]

theorem evaluation (h : inner.Lossless budget) :
    inner.evaluation.Takes budget words fun stmt passed rest =>
      stmt.Closes (passed ++ [rest.head]) := by
  refine (h.inside _).bind fun value passed rest hvalue => ?_
  refine skipSemicolon_takes.bind fun _ more last hmore => takes_pure ?_
  refine ⟨_, .expr hvalue, hmore.imp (fun hnone => ?_) fun hsome => ?_⟩
  · simp [hnone]
  · simp [hsome]

theorem statement (h : inner.Lossless budget) :
    inner.statement.Takes budget words fun stmt passed rest =>
      stmt.Closes (passed ++ [rest.head]) := by
  refine Takes.rule (takes_current fun token htoken hspelt => ?_) _
  have hkind : words.head.kind = token.kind := congrArg Word.kind htoken.symm
  split
  next hlet => exact (h.binding (hspelt.eq_sign (hkind.trans hlet) rfl)).rule _
  next hreturn => exact (h.giving (hspelt.eq_sign (hkind.trans hreturn) rfl)).rule _
  next => exact h.evaluation.rule _

end Lossless

end Nested

end Simian
