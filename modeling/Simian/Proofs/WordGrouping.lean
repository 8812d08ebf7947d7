import Simian.Proofs.PhraseReading

/-!
# How words group to trees

The parser reads the operand that an expression starts with, and then takes in one operator
after the other that binds tightly enough. So what is carried along the left edge of a tree
is that the parser comes to where the tree is the left operand of whatever follows
(`Expr.Comes`). Words that follow and bind no more tightly end the expression there.

Every part of an expression has fewer words than the expression, so with as many nesting
levels as words the limit is never met.
-/
namespace Simian

open Parse Word

/-! ### How an expression starts -/

/-- Whether an expression can start with such a token. -/
def Token.Kind.opens : Token.Kind → Bool
  | .ident | .int | .string | .trueWord | .falseWord | .minus | .bang => true
  | .leftParen | .ifWord | .fnWord | .leftBracket | .leftBrace => true
  | _ => false

/-- The first word can start an expression. -/
def Opens (words : List Word) : Prop := (words.headD .eof).kind.opens = true

section
variable {words rest : List Word}

theorem Opens.length_pos (h : Opens words) : 0 < words.length := by
  cases words with
  | nil => cases h
  | cons => exact Nat.succ_pos _

theorem Opens.append (h : Opens words) (rest : List Word) : Opens (words ++ rest) := by
  cases words with
  | nil => cases h
  | cons => exact h

theorem Opens.not_ends (h : Opens words) :
    (words.headD .eof).kind ∉ [Token.Kind.semicolon, .rightBrace, .eof] := by
  rw [List.mem_cons, List.mem_cons, List.mem_singleton]
  unfold Opens at h
  rintro (he | he | he) <;> rw [he] at h <;> cases h

theorem Opens.kind_ne (h : Opens words) {kind : Token.Kind} (hk : kind.opens = false) :
    (words.headD .eof).kind ≠ kind := by
  rintro rfl
  exact Bool.false_ne_true (hk.symm.trans h)

end

/-! ### Where an expression stops -/

/-- Nothing that is to come belongs to an expression that holds together like this. -/
structure Stops (strength : Precedence) (rest : List Word) : Prop where
  not_else : (rest.headD .eof).kind ≠ .elseWord
  not_weaker : strength.weaker (.ofKind (rest.headD .eof).kind) = false

theorem Stops.of_le {p strength : Precedence} {rest : List Word} (h : Stops p rest)
    (hle : p.rank ≤ strength.rank) : Stops strength rest := by
  refine ⟨h.not_else, ?_⟩
  have hp := h.not_weaker
  simp only [Precedence.weaker, decide_eq_false_iff_not] at hp ⊢
  omega

theorem stops_lowest {kind : Token.Kind} {rest : List Word} (hk : Precedence.ofKind kind = .lowest)
    (he : kind ≠ .elseWord) (p : Precedence) : Stops p (sign kind :: rest) := by
  refine ⟨he, ?_⟩
  show p.weaker (.ofKind kind) = false
  rw [hk, Precedence.weaker, decide_eq_false_iff_not]
  exact Nat.not_lt_zero _

theorem BinaryOp.rank_bounds (op : BinaryOp) :
    (Precedence.ofKind op.kind).rank < Precedence.unary.rank ∧
      0 < (Precedence.ofKind op.kind).rank := by
  cases op <;> decide

theorem LogicalOp.rank_bounds (op : LogicalOp) :
    (Precedence.ofKind op.kind).rank < Precedence.unary.rank ∧
      0 < (Precedence.ofKind op.kind).rank := by
  cases op <;> decide

namespace Expr

/-- Whether the parser, looking for what binds more tightly than `p`, reads the tree as the left
operand of the rest. -/
structure Suits (tree : Expr) (p : Precedence) (rest : List Word) : Prop where
  binds : tree.strength = .unary ∨ p.weaker tree.strength = true
  stops : Stops tree.strength rest

variable {tree operand : Expr} {p : Precedence} {kind : Token.Kind} {words rest : List Word}

theorem strength_cases (tree : Expr) :
    tree.strength.rank < Precedence.unary.rank ∧ 0 < tree.strength.rank ∨
      tree.strength = .unary ∨ tree.strength = .call := by
  cases tree with
  | binary op => exact .inl op.rank_bounds
  | logical op => exact .inl op.rank_bounds
  | unary => exact .inr (.inl rfl)
  | _ => exact .inr (.inr rfl)

theorem lowest_weaker_strength (tree : Expr) : Precedence.lowest.weaker tree.strength = true := by
  rw [Precedence.weaker, decide_eq_true_eq]
  rcases tree.strength_cases with ⟨-, hpos⟩ | he | he
  · exact hpos
  · rw [he]
    decide
  · rw [he]
    decide

theorem strength_eq_call (h : Precedence.unary.rank < tree.strength.rank) :
    tree.strength = .call := by
  rcases tree.strength_cases with ⟨hlt, -⟩ | he | he
  · exact absurd (Nat.lt_trans h hlt) (Nat.lt_irrefl _)
  · rw [he] at h
    exact absurd h (Nat.lt_irrefl _)
  · exact he

/-- The left operand of an infix operator that is taken in. -/
theorem Suits.front (h : tree.Suits p rest) (hs : tree.strength = .ofKind kind)
    (hlt : (Precedence.ofKind kind).rank < Precedence.unary.rank) (helse : kind ≠ .elseWord) :
    p.weaker (.ofKind kind) = true ∧ ((Precedence.ofKind kind).rank ≤ operand.strength.rank →
      operand.Suits p (sign kind :: words)) := by
  have hp : p.weaker (.ofKind kind) = true := by
    rcases h.binds with he | hb
    · rw [← hs, he] at hlt
      exact absurd hlt (Nat.lt_irrefl _)
    · rwa [← hs]
  refine ⟨hp, fun hle => ⟨.inr ?_, helse, ?_⟩⟩
  · rw [Precedence.weaker, decide_eq_true_eq] at hp ⊢
    exact Nat.lt_of_lt_of_le hp hle
  · exact decide_eq_false_iff_not.mpr (Nat.not_lt_of_le hle)

/-- What stands in front of an operator that comes behind its operand. -/
theorem suits_of_behind (hp : p.rank ≤ Precedence.unary.rank)
    (hk : Precedence.unary.rank < (Precedence.ofKind kind).rank) (helse : kind ≠ .elseWord) :
    p.weaker (.ofKind kind) = true ∧ (Precedence.unary.rank + 1 ≤ operand.strength.rank →
      operand.Suits p (sign kind :: words)) := by
  refine ⟨decide_eq_true (Nat.lt_of_le_of_lt hp hk), fun hle => ?_⟩
  have hcall := strength_eq_call hle
  refine ⟨.inr ?_, helse, ?_⟩
  · exact decide_eq_true (Nat.lt_of_le_of_lt hp hle)
  · rw [hcall]
    show Precedence.call.weaker (.ofKind kind) = false
    cases kind <;> rfl

end Expr

/-! ### Room to read -/

/-- The rules with some nesting levels left. -/
def Nested.within (budget levels : Nat) : Nested :=
  ⟨expressionAt budget levels, blockAt budget levels⟩

/-- There are as many nesting levels, and as many rounds for every loop, as there are words. -/
structure Room (budget levels depth limit : Nat) (words : List Word) : Prop where
  levels_le : words.length ≤ levels
  limit_le : depth + levels ≤ limit
  budget_le : words.length ≤ budget

section
variable {budget levels depth limit : Nat} {words part rest : List Word}

theorem Room.of_le (h : Room budget levels depth limit words)
    (hlen : part.length ≤ words.length) : Room budget levels depth limit part :=
  ⟨Nat.le_trans hlen h.levels_le, h.limit_le, Nat.le_trans hlen h.budget_le⟩

/-- One level further in there is room for fewer words. -/
theorem Room.inside (h : Room budget (levels + 1) depth limit words)
    (hlen : part.length < words.length) : Room budget levels (depth + 1) limit part := by
  obtain ⟨hlevels, hlimit, hbudget⟩ := h
  exact ⟨by omega, by omega, by omega⟩

/-- There is at least one level for at least one word. -/
theorem Room.succ (h : Room budget levels depth limit words) (hpos : 0 < words.length) :
    ∃ fewer, levels = fewer + 1 := by
  cases levels with
  | zero => exact absurd (Nat.lt_of_lt_of_le hpos h.levels_le) (Nat.lt_irrefl _)
  | succ fewer => exact ⟨fewer, rfl⟩

end

/-! ### Left operands -/

namespace Expr

/-- The parser comes to where the words have been read as the tree, which is the left operand of
the rest. -/
def Comes (tree : Expr) (least : Nat) (words : List Word) : Prop :=
  ∀ (budget levels depth limit : Nat) (p : Precedence) (rest : List Word) (parser : Parser),
    Room budget (levels + 1) depth limit words → p.rank ≤ Precedence.unary.rank →
    (least ≤ tree.strength.rank → tree.Suits p rest) →
    parser.At (depth + 1) limit (words ++ rest) →
    ∃ left rounds after, (Nested.within budget levels).expressionRule budget p parser =
        (Nested.within budget levels).operators budget p left rounds after ∧
      left.bare = tree.bare ∧ budget ≤ rounds + words.length ∧ after.Faces (depth + 1) limit rest

/-- What is known of an expression that is written as the words. -/
structure Read (tree : Expr) (least : Nat) (words : List Word) : Prop where
  opens : Opens words
  comes : tree.Comes least words

variable {tree left right : Expr} {least : Nat} {words more : List Word} {kind : Token.Kind}

/-- An expression that its first token is enough to tell. -/
theorem comes_operand (h : ∀ (budget levels depth limit : Nat) (rest : List Word),
      Room budget (levels + 1) depth limit words →
      (least ≤ tree.strength.rank → Stops tree.strength rest) →
      ((Nested.within budget levels).operand budget).Reads (depth + 1) limit (words ++ rest) rest
        (·.bare = tree.bare)) : tree.Comes least words := by
  intro budget levels depth limit p rest parser hroom _ hsuits hat
  obtain ⟨value, after, hrun, hvalue, hfaces⟩ :=
    h budget levels depth limit rest hroom (fun hle => (hsuits hle).stops) parser hat
  exact ⟨value, budget, after, Attempt.bind_of_ok hrun, hvalue, Nat.le_add_right _ _, hfaces⟩

/-- An operator behind an operand that has been read is taken in. -/
theorem Read.takesIn (hleft : left.Read least words)
    (hsuits : ∀ (p : Precedence) (rest : List Word), p.rank ≤ Precedence.unary.rank →
      tree.Suits p rest → p.weaker (.ofKind kind) = true ∧
        (least ≤ left.strength.rank → left.Suits p (sign kind :: (more ++ rest))))
    (htakes : ∀ (budget levels depth limit : Nat) (rest : List Word) (other : Expr),
      Room budget (levels + 1) depth limit (words ++ sign kind :: more) →
      Stops tree.strength rest → other.bare = left.bare →
      (Nested.within budget levels).TakesIn (depth + 1) limit budget other kind more rest
        (·.bare = tree.bare)) :
    tree.Read 0 (words ++ sign kind :: more) where
  opens := hleft.opens.append _
  comes := by
    intro budget levels depth limit p rest parser hroom hp htree hat
    have hlen : words.length < (words ++ sign kind :: more).length := by
      rw [List.length_append, List.length_cons]
      omega
    obtain ⟨hweaker, hl⟩ := hsuits p rest hp (htree (Nat.zero_le _))
    rw [List.append_assoc, List.cons_append] at hat
    obtain ⟨other, rounds, between, hrun, hother, hrounds, hfaces⟩ :=
      hleft.comes budget levels depth limit p _ parser (hroom.of_le (Nat.le_of_lt hlen)) hp hl hat
    obtain ⟨fewer, rfl⟩ : ∃ fewer, rounds = fewer + 1 := by
      refine Nat.exists_eq_succ_of_ne_zero ?_
      rintro rfl
      have hbudget := hroom.budget_le
      omega
    obtain ⟨value, after, hstep, hvalue, hafter⟩ := Nested.operators_takesIn hweaker
      (htakes budget levels depth limit rest other hroom (htree (Nat.zero_le _)).stops hother)
      hfaces
    exact ⟨value, fewer, after, hrun.trans hstep, hvalue, by omega, hafter⟩

/-! ### Whole expressions -/

/-- The rule for expressions reads the words, if what follows stops it. -/
theorem Read.reads {budget levels depth limit : Nat} {p : Precedence} {rest : List Word}
    (h : tree.Read least words) (hroom : Room budget levels depth limit words)
    (hp : p.rank ≤ Precedence.unary.rank)
    (hbinds : least ≤ tree.strength.rank → tree.strength = .unary ∨ p.weaker tree.strength = true)
    (hstop : Stops p rest) : ((Nested.within budget levels).expression p).Reads depth limit
      (words ++ rest) rest (·.bare = tree.bare) := by
  obtain ⟨fewer, rfl⟩ := hroom.succ h.opens.length_pos
  have hlimit := hroom.limit_le
  refine Reads.nested (Reads.rule ?_ "Expression") (by omega)
  intro parser hat
  have hsuits : least ≤ tree.strength.rank → tree.Suits p rest := by
    intro hle
    refine ⟨hbinds hle, hstop.of_le ?_⟩
    rcases hbinds hle with he | hb
    · rwa [he]
    · exact Nat.le_of_lt (of_decide_eq_true hb)
  obtain ⟨left, rounds, after, hrun, hleft, -, hafter⟩ :=
    h.comes budget fewer depth limit p rest parser hroom hp hsuits hat
  exact ⟨left, after, hrun.trans (Nested.operators_stop hstop.not_weaker hafter), hleft, hafter⟩

/-- Where nothing binds too weakly. -/
theorem Read.reads_lowest {budget levels depth limit : Nat} {rest : List Word}
    (h : tree.Read 0 words) (hroom : Room budget levels depth limit words)
    (hstop : Stops .lowest rest) : ((Nested.within budget levels).expression .lowest).Reads depth
      limit (words ++ rest) rest (·.bare = tree.bare) :=
  h.reads hroom (Nat.zero_le _) (fun _ => .inr tree.lowest_weaker_strength) hstop

end Expr

/-! ### Lists -/

/-- What is known of expressions that are written as the words, with a comma before each. -/
structure MoreItemsRead (items : List Expr) (words : List Word) : Prop where
  length_le : items.length ≤ words.length
  stops : ∀ rest, Stops .lowest rest → Stops .lowest (words ++ rest)
  reads : ∀ (budget levels depth limit : Nat) (rest : List Word),
    Room budget levels depth limit words → Stops .lowest rest → (rest.headD .eof).kind ≠ .comma →
    (Nested.within budget levels).ReadsMoreItems depth limit items words rest

/-- What is known of expressions that are written as the words, with commas between them. -/
def ItemsRead (items : List Expr) (words : List Word) : Prop :=
  ∀ (budget levels depth limit : Nat) (closing : Token.Kind) (rest : List Word),
    Room budget levels depth limit words → closing = .rightParen ∨ closing = .rightBracket →
    (Nested.within budget levels).ReadsItems depth limit budget closing items words rest

/-- What is known of entries that are written as the words, with a comma before each. -/
structure MoreEntriesRead (entries : List (Expr × Expr)) (words : List Word) : Prop where
  length_le : entries.length ≤ words.length
  stops : ∀ rest, Stops .lowest rest → Stops .lowest (words ++ rest)
  reads : ∀ (budget levels depth limit : Nat) (rest : List Word),
    Room budget levels depth limit words → Stops .lowest rest → (rest.headD .eof).kind ≠ .comma →
    (Nested.within budget levels).ReadsMoreEntries depth limit entries words rest

/-- What is known of entries that are written as the words, with commas between them. -/
def EntriesRead (entries : List (Expr × Expr)) (words : List Word) : Prop :=
  ∀ (budget levels depth limit : Nat) (span : Span) (rest : List Word),
    Room budget levels depth limit words →
    ((Nested.within budget levels).hash budget).Reads depth limit (inBraces words ++ rest) rest
      (·.bare = (Expr.hash entries span).bare)

/-- What is known of a statement that is written as the words. -/
structure Stmt.Read (stmt : Stmt) (words : List Word) : Prop where
  length_pos : 0 < words.length
  opens : (words.headD .eof).kind ∉ [Token.Kind.semicolon, .rightBrace, .eof]
  reads : ∀ (budget levels depth limit : Nat) (rest : List Word),
    Room budget levels depth limit words →
    (Nested.within budget levels).statement.Reads depth limit (words ++ rest) rest
      (·.bare = stmt.bare)

/-- What is known of statements that are written as the words. -/
structure StmtsRead (statements : List Stmt) (words : List Word) : Prop where
  length_le : statements.length ≤ words.length
  reads : ∀ (budget levels depth limit : Nat) (rest : List Word),
    Room budget levels depth limit words →
    (Nested.within budget levels).ReadsStmts depth limit statements words rest

section
variable {least : Nat} {words more last : List Word}

theorem stops_comma (rest : List Word) : Stops .lowest (sign .comma :: rest) :=
  stops_lowest rfl Token.Kind.noConfusion _

theorem moreItemsRead_nil : MoreItemsRead [] [] where
  length_le := Nat.le_refl _
  stops := fun _ h => h
  reads := fun _ _ _ _ _ _ _ hcomma => Nested.readsMoreItems_nil hcomma

theorem MoreItemsRead.cons {item : Expr} {items : List Expr} (hitem : item.Read 0 words)
    (hmore : MoreItemsRead items more) :
    MoreItemsRead (item :: items) (sign .comma :: (words ++ more)) where
  length_le := by
    have hlen := hmore.length_le
    simp only [List.length_cons, List.length_append]
    omega
  stops := fun rest _ => stops_comma _
  reads := by
    intro budget levels depth limit rest hroom hstop hcomma
    refine .cons (hitem.reads_lowest (hroom.of_le ?_) (hmore.stops rest hstop))
      (hmore.reads budget levels depth limit rest (hroom.of_le ?_) hstop hcomma)
    · simp only [List.length_cons, List.length_append]
      omega
    · simp only [List.length_cons, List.length_append]
      omega

theorem itemsRead_none : ItemsRead [] [] :=
  fun _ _ _ _ _ _ _ _ => Nested.readsItems_none

theorem itemsRead_some {item : Expr} {items : List Expr} (hitem : item.Read 0 words)
    (hmore : MoreItemsRead items more) : ItemsRead (item :: items) (words ++ more) := by
  intro budget levels depth limit closing rest hroom hclosing
  have hlen : words.length + more.length = (words ++ more).length := List.length_append.symm
  have hbudget := hroom.budget_le
  have hstop : Stops .lowest (sign closing :: rest) := by
    rcases hclosing with rfl | rfl
    · exact stops_lowest rfl Token.Kind.noConfusion _
    · exact stops_lowest rfl Token.Kind.noConfusion _
  have hopens : closing.opens = false ∧ closing ≠ .comma := by
    rcases hclosing with rfl | rfl
    · exact ⟨rfl, Token.Kind.noConfusion⟩
    · exact ⟨rfl, Token.Kind.noConfusion⟩
  refine Nested.readsItems_some ((hitem.opens.append _).kind_ne hopens.1) ?_
    (hitem.reads_lowest (hroom.of_le (by omega)) (hmore.stops _ hstop))
    (hmore.reads budget levels depth limit _ (hroom.of_le (by omega)) hstop hopens.2)
  have hcount := hmore.length_le
  omega

theorem moreEntriesRead_nil : MoreEntriesRead [] [] where
  length_le := Nat.le_refl _
  stops := fun _ h => h
  reads := fun _ _ _ _ _ _ _ hcomma => Nested.readsMoreEntries_nil hcomma

theorem stops_colon (rest : List Word) : Stops .lowest (sign .colon :: rest) :=
  stops_lowest rfl Token.Kind.noConfusion _

theorem MoreEntriesRead.cons {key value : Expr} {entries : List (Expr × Expr)}
    (hkey : key.Read 0 words) (hvalue : value.Read 0 more) (hmore : MoreEntriesRead entries last) :
    MoreEntriesRead ((key, value) :: entries)
      (sign .comma :: (words ++ sign .colon :: (more ++ last))) where
  length_le := by
    have hlen := hmore.length_le
    simp only [List.length_cons, List.length_append]
    omega
  stops := fun rest _ => stops_comma _
  reads := by
    intro budget levels depth limit rest hroom hstop hcomma
    have hlen : words.length + (more.length + last.length) + 2 =
        (sign .comma :: (words ++ sign .colon :: (more ++ last))).length := by
      simp only [List.length_cons, List.length_append]
      omega
    exact .cons (hkey.reads_lowest (hroom.of_le (by omega)) (stops_colon _))
      (hvalue.reads_lowest (hroom.of_le (by omega)) (hmore.stops rest hstop))
      (hmore.reads budget levels depth limit rest (hroom.of_le (by omega)) hstop hcomma)

theorem entriesRead_none : EntriesRead [] [] :=
  fun _ _ _ _ _ _ _ => Nested.hash_reads_none

theorem entriesRead_some {key value : Expr} {entries : List (Expr × Expr)}
    (hkey : key.Read 0 words) (hvalue : value.Read 0 more) (hmore : MoreEntriesRead entries last) :
    EntriesRead ((key, value) :: entries) (words ++ sign .colon :: (more ++ last)) := by
  intro budget levels depth limit span rest hroom
  have hlen : words.length + (more.length + last.length) + 1 =
      (words ++ sign .colon :: (more ++ last)).length := by
    simp only [List.length_cons, List.length_append]
    omega
  have hcount := hmore.length_le
  have hbudget := hroom.budget_le
  have hstop : Stops .lowest (sign .rightBrace :: rest) :=
    stops_lowest rfl Token.Kind.noConfusion _
  exact Nested.hash_reads_some ((hkey.opens.append _).kind_ne rfl) (by omega)
    (hkey.reads_lowest (hroom.of_le (by omega)) (stops_colon _))
    (hvalue.reads_lowest (hroom.of_le (by omega)) (hmore.stops _ hstop))
    (hmore.reads budget levels depth limit _ (hroom.of_le (by omega)) hstop
      Token.Kind.noConfusion)

/-! ### Statements and blocks -/

theorem stops_semicolon (rest : List Word) : Stops .lowest (sign .semicolon :: rest) :=
  stops_lowest rfl Token.Kind.noConfusion _

section
variable {value : Expr} {span : Span}

theorem stmtRead_bind {name : String} (hnamed : value.named name = value)
    (h : value.Read 0 words) : (Stmt.bind name value span).Read
      (sign .letWord :: Word.name name :: sign .assign :: (words ++ [sign .semicolon])) where
  length_pos := Nat.succ_pos _
  opens := by
    show Token.Kind.letWord ∉ _
    decide
  reads := by
    intro budget levels depth limit rest hroom
    have hpart : Room budget levels depth limit words := hroom.of_le (by
      simp only [List.length_cons, List.length_append]
      omega)
    have hbinding : (Nested.within budget levels).binding.Reads depth limit
        (sign .letWord :: Word.name name :: sign .assign :: (words ++ sign .semicolon :: rest)) rest
        (·.bare = (Stmt.bind name value span).bare) :=
      Nested.binding_reads hnamed (h.reads_lowest hpart (stops_semicolon rest))
    have hreads := Nested.statement_bind hbinding
    simpa only [List.cons_append, List.append_assoc, List.nil_append] using hreads

theorem stmtRead_ret (h : value.Read 0 words) :
    (Stmt.ret value span).Read (sign .returnWord :: (words ++ [sign .semicolon])) where
  length_pos := Nat.succ_pos _
  opens := by
    show Token.Kind.returnWord ∉ _
    decide
  reads := by
    intro budget levels depth limit rest hroom
    have hpart : Room budget levels depth limit words := hroom.of_le (by
      simp only [List.length_cons, List.length_append]
      omega)
    rw [List.cons_append, List.append_assoc]
    refine Nested.statement_return (Nested.giving_reads (fun kind hkind => ?_)
      (h.reads_lowest hpart (stops_semicolon rest)))
    rintro rfl
    exact (h.opens.append _).not_ends hkind

theorem stmtRead_retNull : (Stmt.retNull span).Read [sign .returnWord, sign .semicolon] where
  length_pos := Nat.succ_pos _
  opens := by
    show Token.Kind.returnWord ∉ _
    decide
  reads := fun _ _ _ _ _ _ => Nested.statement_return Nested.giving_reads_null

theorem stmtRead_expr (h : value.Read 0 words) :
    (Stmt.expr value span).Read (words ++ [sign .semicolon]) where
  length_pos := (h.opens.append _).length_pos
  opens := (h.opens.append _).not_ends
  reads := by
    intro budget levels depth limit rest hroom
    have hpart : Room budget levels depth limit words := hroom.of_le (by
      rw [List.length_append]
      exact Nat.le_add_right _ _)
    have hopens := h.opens.append (sign .semicolon :: rest)
    rw [List.append_assoc]
    exact Nested.statement_expression (hopens.kind_ne rfl) (hopens.kind_ne rfl)
      (Nested.evaluation_reads (h.reads_lowest hpart (stops_semicolon rest)))

end

theorem stmtsRead_nil : StmtsRead [] [] where
  length_le := Nat.le_refl _
  reads := fun _ _ _ _ _ _ => Nested.readsStmts_nil

theorem StmtsRead.cons {stmt : Stmt} {statements : List Stmt} (hstmt : stmt.Read words)
    (hmore : StmtsRead statements more) : StmtsRead (stmt :: statements) (words ++ more) where
  length_le := by
    have hpos := hstmt.length_pos
    have hlen := hmore.length_le
    simp only [List.length_cons, List.length_append]
    omega
  reads := by
    intro budget levels depth limit rest hroom
    have hlen : words.length + more.length = (words ++ more).length := List.length_append.symm
    refine .cons ?_ (hstmt.reads budget levels depth limit _ (hroom.of_le (by omega)))
      (hmore.reads budget levels depth limit rest (hroom.of_le (by omega)))
    have hopens := hstmt.opens
    cases words with
    | nil => exact absurd hstmt.length_pos (Nat.lt_irrefl _)
    | cons => exact hopens

/-- A block takes one nesting level, and its braces are words too. -/
theorem StmtsRead.block {statements : List Stmt} {span : Span} {budget levels depth limit : Nat}
    (h : StmtsRead statements words) (hroom : Room budget levels depth limit (inBraces words))
    (rest : List Word) : ((Nested.within budget levels).block).Reads depth limit
      (inBraces words ++ rest) rest (·.bare = (Block.mk statements span).bare) := by
  have hlen : words.length + 2 = (inBraces words).length := (length_enclosed _ _ _).symm
  obtain ⟨fewer, rfl⟩ := hroom.succ (by omega)
  have hlimit := hroom.limit_le
  have hbudget := hroom.budget_le
  have hcount := h.length_le
  exact Reads.nested (Reads.rule (Nested.block_reads (by omega)
    (h.reads budget fewer (depth + 1) limit _ (hroom.inside (by omega)))) "BlockExpression")
    (by omega)

/-! ### Expressions -/

namespace Expr

variable {tree operand left right : Expr} {span : Span}

theorem read_of_operand (hopens : Opens words)
    (h : ∀ (budget levels depth limit : Nat) (rest : List Word),
      Room budget (levels + 1) depth limit words →
      (least ≤ tree.strength.rank → Stops tree.strength rest) →
      ((Nested.within budget levels).operand budget).Reads (depth + 1) limit (words ++ rest) rest
        (·.bare = tree.bare)) : tree.Read least words :=
  ⟨hopens, comes_operand h⟩

/-- What stands without parentheses holds together as tightly as it has to. -/
theorem Read.plain (h : tree.Read 0 words) (hle : least ≤ tree.strength.rank) :
    tree.Read least words where
  opens := h.opens
  comes := fun budget levels depth limit p rest parser hroom hp hsuits hat =>
    h.comes budget levels depth limit p rest parser hroom hp (fun _ => hsuits hle) hat

theorem Read.group (h : tree.Read 0 words) : tree.Read least (inParens words) :=
  read_of_operand rfl fun _ _ _ _ _ hroom _ => Nested.operand_group (Nested.group_reads
    (h.reads_lowest (hroom.inside (by rw [length_enclosed]; omega))
      (stops_lowest rfl Token.Kind.noConfusion _)))

theorem read_ident {name : String} : (Expr.ident name span).Read 0 [Word.name name] :=
  read_of_operand rfl fun _ _ _ _ _ _ _ => Nested.operand_ident

theorem read_integer {value : Int64} (h : 0 ≤ value) :
    (Expr.integer value span).Read 0 [Word.number value.toNatClampNeg] :=
  read_of_operand rfl fun _ _ _ _ _ _ _ => Nested.operand_integer h

theorem read_boolean {value : Bool} : (Expr.boolean value span).Read 0
    [sign (if value then .trueWord else .falseWord)] :=
  read_of_operand (by cases value <;> rfl) fun _ _ _ _ _ _ _ => Nested.operand_boolean

theorem read_string {value : String} : (Expr.string value span).Read 0 [Word.string value] :=
  read_of_operand rfl fun _ _ _ _ _ _ _ => Nested.operand_string

theorem read_unary {op : UnaryOp} (h : operand.Read Precedence.unary.rank words) :
    (Expr.unary op operand span).Read 0 (sign op.kind :: words) := by
  refine read_of_operand (by cases op <;> rfl) fun _ _ _ _ rest hroom hstop => ?_
  refine Nested.operand_unary (Nested.unary_reads (h.reads (hroom.inside (Nat.lt_succ_self _))
    (Nat.le_refl _) (fun hle => ?_) (hstop (Nat.zero_le _))))
  rcases Nat.eq_or_lt_of_le hle with he | hlt
  · exact .inl (Precedence.rank_injective he.symm)
  · exact .inr (decide_eq_true hlt)

/-- The right operand of an infix operator. -/
theorem Read.reads_right {kind : Token.Kind} {budget levels depth limit : Nat} {rest : List Word}
    (h : right.Read ((Precedence.ofKind kind).rank + 1) more)
    (hroom : Room budget (levels + 1) depth limit (words ++ sign kind :: more))
    (hlt : (Precedence.ofKind kind).rank < Precedence.unary.rank)
    (hstop : Stops (.ofKind kind) rest) :
    ((Nested.within budget levels).expression (.ofKind kind)).Reads (depth + 1) limit (more ++ rest)
      rest (·.bare = right.bare) := by
  refine h.reads (hroom.inside ?_) (Nat.le_of_lt hlt) (fun hle => .inr (decide_eq_true hle)) hstop
  rw [List.length_append, List.length_cons]
  omega

theorem read_binary {op : BinaryOp} (hleft : left.Read (Precedence.ofKind op.kind).rank words)
    (hright : right.Read ((Precedence.ofKind op.kind).rank + 1) more) :
    (Expr.binary op left right span).Read 0 (words ++ sign op.kind :: more) :=
  hleft.takesIn (fun _ _ _ hs => hs.front rfl op.rank_bounds.1 (by cases op <;> decide))
    fun _ _ _ _ _ _ hroom hstop hother =>
      Nested.takesIn_binary hother (hright.reads_right hroom op.rank_bounds.1 hstop)

theorem read_logical {op : LogicalOp} (hleft : left.Read (Precedence.ofKind op.kind).rank words)
    (hright : right.Read ((Precedence.ofKind op.kind).rank + 1) more) :
    (Expr.logical op left right span).Read 0 (words ++ sign op.kind :: more) :=
  hleft.takesIn (fun _ _ _ hs => hs.front rfl op.rank_bounds.1 (by cases op <;> decide))
    fun _ _ _ _ _ _ hroom hstop hother =>
      Nested.takesIn_logical hother (hright.reads_right hroom op.rank_bounds.1 hstop)

theorem read_bump {op : BumpOp} (h : operand.Read (Precedence.unary.rank + 1) words) :
    (Expr.bump op operand span).Read 0 (words ++ [sign op.kind]) :=
  h.takesIn (fun _ _ hp _ => suits_of_behind hp (by cases op <;> decide) (by cases op <;> decide))
    fun _ _ _ _ _ _ _ _ hother => Nested.takesIn_bump hother

theorem read_call {arguments : List Expr} (h : operand.Read (Precedence.unary.rank + 1) words)
    (hitems : ItemsRead arguments more) :
    (Expr.call operand arguments span).Read 0 (words ++ inParens more) :=
  h.takesIn (fun _ _ hp _ => suits_of_behind hp (by decide) (by decide))
    fun budget levels depth limit rest _ hroom _ hother => Nested.takesIn_call hother
      (hitems budget levels (depth + 1) limit _ rest (hroom.inside (by
        simp only [List.length_append, List.length_cons]
        omega)) (.inl rfl))

theorem read_index {key : Expr} (h : operand.Read (Precedence.unary.rank + 1) words)
    (hkey : key.Read 0 more) : (Expr.index operand key span).Read 0 (words ++ inBrackets more) :=
  h.takesIn (fun _ _ hp _ => suits_of_behind hp (by decide) (by decide))
    fun _ _ _ _ _ _ hroom _ hother => Nested.takesIn_index hother
      (hkey.reads_lowest (hroom.inside (by
        simp only [List.length_append, List.length_cons]
        omega)) (stops_lowest rfl Token.Kind.noConfusion _))

theorem read_ifThen {statements : List Stmt} {inner : Span} (h : operand.Read 0 words)
    (hblock : StmtsRead statements more) : (Expr.ifThen operand (.mk statements inner) span).Read 0
      (sign .ifWord :: (inParens words ++ inBraces more)) := by
  refine read_of_operand rfl fun _ _ _ _ rest hroom hstop => ?_
  have hlen : (sign .ifWord :: (inParens words ++ inBraces more)).length =
      words.length + 2 + (inBraces more).length + 1 := by
    rw [List.length_cons, List.length_append, length_enclosed]
  exact Nested.operand_conditional (Nested.ifThen_reads
    (h.reads_lowest (hroom.inside (by omega)) (stops_lowest rfl Token.Kind.noConfusion _))
    (hblock.block (hroom.inside (by omega)) rest) (hstop (Nat.zero_le _)).not_else)

theorem read_ifElse {first second : List Stmt} {inner other : Span} (h : operand.Read 0 words)
    (hfirst : StmtsRead first more) (hsecond : StmtsRead second last) :
    (Expr.ifElse operand (.mk first inner) (.mk second other) span).Read 0
      (sign .ifWord :: (inParens words ++ (inBraces more ++ sign .elseWord :: inBraces last))) := by
  refine read_of_operand rfl fun _ _ _ _ rest hroom _ => ?_
  have hlen : (sign .ifWord ::
      (inParens words ++ (inBraces more ++ sign .elseWord :: inBraces last))).length =
        words.length + 2 + ((inBraces more).length + ((inBraces last).length + 1)) + 1 := by
    rw [List.length_cons, List.length_append, length_enclosed, List.length_append, List.length_cons]
  exact Nested.operand_conditional (Nested.ifElse_reads
    (h.reads_lowest (hroom.inside (by omega)) (stops_lowest rfl Token.Kind.noConfusion _))
    (hfirst.block (hroom.inside (by omega)) _) (hsecond.block (hroom.inside (by omega)) rest))

theorem read_function {name : Option String} {parameters : List String} {statements : List Stmt}
    {inner : Span} (hnodup : parameters.Nodup) (hblock : StmtsRead statements words) :
    (Expr.function name parameters (.mk statements inner) span).Read 0 (sign .fnWord ::
      (name.toList.map Word.name ++ (inParens (names parameters) ++ inBraces words))) := by
  refine read_of_operand rfl fun _ _ _ _ rest hroom _ => ?_
  have hlen : (sign .fnWord :: (name.toList.map Word.name ++
      (inParens (names parameters) ++ inBraces words))).length =
        (name.toList.map Word.name).length + ((names parameters).length + 2 +
          (inBraces words).length) + 1 := by
    rw [List.length_cons, List.length_append, List.length_append, length_enclosed]
  have hcount := length_le_names parameters
  have hbudget := hroom.budget_le
  exact Nested.operand_function (Nested.function_reads hnodup (by omega)
    (hblock.block (hroom.inside (by omega)) rest))

theorem read_array {elements : List Expr} (h : ItemsRead elements words) :
    (Expr.array elements span).Read 0 (inBrackets words) :=
  read_of_operand rfl fun budget levels depth limit rest hroom _ => Nested.operand_array
    (Nested.array_reads (h budget levels (depth + 1) limit _ rest
      (hroom.inside (by rw [length_enclosed]; omega)) (.inr rfl)))

theorem read_hash {entries : List (Expr × Expr)} (h : EntriesRead entries words) :
    (Expr.hash entries span).Read 0 (inBraces words) :=
  read_of_operand rfl fun budget levels depth limit rest hroom _ => Nested.operand_hash
    (h budget levels (depth + 1) limit span rest (hroom.inside (by rw [length_enclosed]; omega)))

end Expr

end

/-! ### Every tree -/

mutual

theorem Expr.Written.read {least : Nat} {tree : Expr} {words : List Word}
    (h : tree.Written least words) : tree.Read least words :=
  match h with
  | .plain hle hplain => hplain.read.plain hle
  | .group hinner => hinner.read.group

theorem Expr.Plain.read {tree : Expr} {words : List Word} (h : tree.Plain words) :
    tree.Read 0 words :=
  match h with
  | .ident _ => Expr.read_ident
  | .integer hpos => Expr.read_integer hpos
  | .boolean => Expr.read_boolean
  | .string => Expr.read_string
  | .unary hoperand => Expr.read_unary hoperand.read
  | .binary hleft hright => Expr.read_binary hleft.read hright.read
  | .logical hleft hright => Expr.read_logical hleft.read hright.read
  | .bump hoperand => Expr.read_bump hoperand.read
  | .ifThen hcondition hblock => Expr.read_ifThen hcondition.read hblock.read
  | .ifElse hcondition hfirst hsecond =>
    Expr.read_ifElse hcondition.read hfirst.read hsecond.read
  | .function _ _ hnodup hblock => Expr.read_function hnodup hblock.read
  | .array hitems => Expr.read_array hitems.read
  | .hash hentries => Expr.read_hash hentries.read
  | .call hcallee hitems => Expr.read_call hcallee.read hitems.read
  | .index hcollection hkey => Expr.read_index hcollection.read hkey.read

theorem ItemsWritten.read {items : List Expr} {words : List Word} (h : ItemsWritten items words) :
    ItemsRead items words :=
  match h with
  | .none => itemsRead_none
  | .some hfirst hmore => itemsRead_some hfirst.read hmore.read

theorem MoreItemsWritten.read {items : List Expr} {words : List Word}
    (h : MoreItemsWritten items words) : MoreItemsRead items words :=
  match h with
  | .nil => moreItemsRead_nil
  | .cons hitem hmore => .cons hitem.read hmore.read

theorem EntriesWritten.read {entries : List (Expr × Expr)} {words : List Word}
    (h : EntriesWritten entries words) : EntriesRead entries words :=
  match h with
  | .none => entriesRead_none
  | .some hkey hvalue hmore => entriesRead_some hkey.read hvalue.read hmore.read

theorem MoreEntriesWritten.read {entries : List (Expr × Expr)} {words : List Word}
    (h : MoreEntriesWritten entries words) : MoreEntriesRead entries words :=
  match h with
  | .nil => moreEntriesRead_nil
  | .cons hkey hvalue hmore => .cons hkey.read hvalue.read hmore.read

theorem Stmt.Written.read {stmt : Stmt} {words : List Word} (h : stmt.Written words) :
    stmt.Read words :=
  match h with
  | .bind _ hnamed hvalue => stmtRead_bind hnamed hvalue.read
  | .ret hvalue => stmtRead_ret hvalue.read
  | .retNull => stmtRead_retNull
  | .expr hvalue => stmtRead_expr hvalue.read

theorem StmtsWritten.read {statements : List Stmt} {words : List Word}
    (h : StmtsWritten statements words) : StmtsRead statements words :=
  match h with
  | .nil => stmtsRead_nil
  | .cons hstmt hmore => .cons hstmt.read hmore.read

end

end Simian
