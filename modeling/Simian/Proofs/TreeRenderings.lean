import Mathlib.Data.Nat.Digits.Defs
import Simian.Proofs.Scanning
import Simian.Tree.Numeral

/-!
# Trees as the words of a source

`Expr.Rendered` says which words a tree may have been read from. It is wider than
`Expr.Written`, which only has texts that a printer would make: semicolons may be left out or
repeated, a number may be spelled in any radix, and the function literal of a `let` may have a
name of its own. Parentheses are as in `Expr.Written`, around whatever binds too weakly for
where it stands, and around other expressions as one likes.
-/
namespace Simian

/-! ### What a number is worth -/

namespace Numeral

/-- The digits of a literal, those of the highest place first, each with its worth. -/
def digits (literal : List Char) : List Nat := (split literal).2.filterMap digitValue?

/-- The value of a literal in its radix. -/
def valueOf (literal : List Char) : Nat := Nat.ofDigits (split literal).1 (digits literal).reverse

/-- The literal is made of digits of its radix, and of underscores, and has the value. -/
structure Denotes (literal : List Char) (value : Int64) : Prop where
  digits : ∀ c ∈ (split literal).2, c = '_' ∨ ∃ digit ∈ digitValue? c, digit < (split literal).1
  value_eq : value.toInt = valueOf literal

variable {radix value result : Nat} {afterDigit : Bool} {chars : List Char}

/-- Digits read after others count as lower places. -/
theorem readDigits_eq_some (h : readDigits radix value afterDigit chars = some result) :
    (∀ c ∈ chars, c = '_' ∨ ∃ digit ∈ digitValue? c, digit < radix) ∧
      result = Nat.ofDigits radix ((chars.filterMap digitValue?).reverse ++ [value]) := by
  induction chars generalizing value afterDigit with
  | nil =>
    rw [readDigits] at h
    split at h
    · cases h
      constructor
      · exact List.forall_mem_nil _
      · exact (Nat.ofDigits_singleton).symm
    · cases h
  | cons c rest ih =>
    rw [readDigits] at h
    split at h
    next hbar =>
      subst hbar
      have hnone : digitValue? '_' = none := by decide
      split at h
      · obtain ⟨hrest, hresult⟩ := ih h
        rw [List.filterMap_cons_none hnone]
        exact ⟨List.forall_mem_cons.mpr ⟨.inl rfl, hrest⟩, hresult⟩
      · cases h
    next =>
      split at h
      next digit hdigit =>
        split at h
        next hlt =>
          obtain ⟨hrest, hresult⟩ := ih h
          have hplace : Nat.ofDigits radix [digit, value] = value * radix + digit := by
            rw [Nat.ofDigits_cons, Nat.ofDigits_singleton, Nat.mul_comm, Nat.add_comm]
          constructor
          · exact List.forall_mem_cons.mpr ⟨.inr ⟨digit, hdigit, hlt⟩, hrest⟩
          · rw [hresult, List.filterMap_cons_some hdigit, List.reverse_cons, List.append_assoc,
              List.singleton_append, Nat.ofDigits_append, Nat.ofDigits_append, hplace,
              Nat.ofDigits_singleton]
        · cases h
      · cases h

/-- A literal that is read has the value that it is read as. -/
theorem denotes_of_read? {literal : List Char} {value : Int64} (h : read? literal = some value) :
    Denotes literal value := by
  unfold read? at h
  dsimp only at h
  split at h
  next total htotal =>
    obtain ⟨hdigits, hvalue⟩ := readDigits_eq_some htotal
    split at h
    next hfits =>
      cases h
      constructor
      · exact hdigits
      · have hworth : total = valueOf literal := by
          rw [hvalue, Nat.ofDigits_append, Nat.ofDigits_singleton, Nat.mul_zero, Nat.add_zero]
          rfl
        rw [← hworth]
        exact Int64.toInt_ofNat_of_lt (Nat.lt_of_le_of_lt hfits (by decide))
    · cases h
  · cases h

end Numeral

/-! ### What a tree may be read from -/

open Word

mutual

/-- The expression stands for the words where it has to hold together as tightly as the rank
says. -/
inductive Expr.Rendered : (least : Nat) → Expr → List Word → Prop
  | plain {least : Nat} {expr : Expr} {words : List Word} : least ≤ expr.strength.rank →
    expr.Unwrapped words → Expr.Rendered least expr words
  | group {least : Nat} {expr : Expr} {words : List Word} : expr.Rendered 0 words →
    Expr.Rendered least expr (inParens words)

/-- The expression stands for the words, which have no parentheses around them. -/
inductive Expr.Unwrapped : Expr → List Word → Prop
  | ident {name : String} {span : Span} : Expr.Unwrapped (.ident name span) [.name name]
  | integer {value : Int64} {literal : String} {span : Span} :
    Numeral.Denotes literal.toList value → Expr.Unwrapped (.integer value span) [⟨.int, literal⟩]
  | boolean {value : Bool} {span : Span} :
    Expr.Unwrapped (.boolean value span) [.sign (if value then .trueWord else .falseWord)]
  | string {value : String} {span : Span} : Expr.Unwrapped (.string value span) [.string value]
  | unary {op : UnaryOp} {operand : Expr} {span : Span} {words : List Word} :
    operand.Rendered Precedence.unary.rank words →
    Expr.Unwrapped (.unary op operand span) (sign op.kind :: words)
  | binary {op : BinaryOp} {left right : Expr} {span : Span} {words more : List Word} :
    left.Rendered (Precedence.ofKind op.kind).rank words →
    right.Rendered ((Precedence.ofKind op.kind).rank + 1) more →
    Expr.Unwrapped (.binary op left right span) (words ++ sign op.kind :: more)
  | logical {op : LogicalOp} {left right : Expr} {span : Span} {words more : List Word} :
    left.Rendered (Precedence.ofKind op.kind).rank words →
    right.Rendered ((Precedence.ofKind op.kind).rank + 1) more →
    Expr.Unwrapped (.logical op left right span) (words ++ sign op.kind :: more)
  | bump {op : BumpOp} {operand : Expr} {span : Span} {words : List Word} :
    operand.Rendered (Precedence.unary.rank + 1) words →
    Expr.Unwrapped (.bump op operand span) (words ++ [sign op.kind])
  | ifThen {condition : Expr} {thenBlock : Block} {span : Span} {words more : List Word} :
    condition.Rendered 0 words → thenBlock.Rendered more →
    Expr.Unwrapped (.ifThen condition thenBlock span) (sign .ifWord :: (inParens words ++ more))
  | ifElse {condition : Expr} {thenBlock elseBlock : Block} {span : Span}
    {words more last : List Word} :
    condition.Rendered 0 words → thenBlock.Rendered more → elseBlock.Rendered last →
    Expr.Unwrapped (.ifElse condition thenBlock elseBlock span)
      (sign .ifWord :: (inParens words ++ (more ++ sign .elseWord :: last)))
  | function {name : Option String} {parameters : List String} {body : Block} {span : Span}
    {words : List Word} : parameters.Nodup → body.Rendered words →
    Expr.Unwrapped (.function name parameters body span)
      (sign .fnWord :: (name.toList.map Word.name ++ (inParens (names parameters) ++ words)))
  | array {elements : List Expr} {span : Span} {words : List Word} :
    ItemsRendered elements words → Expr.Unwrapped (.array elements span) (inBrackets words)
  | hash {entries : List (Expr × Expr)} {span : Span} {words : List Word} :
    EntriesRendered entries words → Expr.Unwrapped (.hash entries span) (inBraces words)
  | call {callee : Expr} {arguments : List Expr} {span : Span} {words more : List Word} :
    callee.Rendered (Precedence.unary.rank + 1) words → ItemsRendered arguments more →
    Expr.Unwrapped (.call callee arguments span) (words ++ inParens more)
  | index {collection key : Expr} {span : Span} {words more : List Word} :
    collection.Rendered (Precedence.unary.rank + 1) words → key.Rendered 0 more →
    Expr.Unwrapped (.index collection key span) (words ++ inBrackets more)

/-- The expressions with commas between them. -/
inductive ItemsRendered : List Expr → List Word → Prop
  | none : ItemsRendered [] []
  | some {first : Expr} {rest : List Expr} {words more : List Word} : first.Rendered 0 words →
    MoreItemsRendered rest more → ItemsRendered (first :: rest) (words ++ more)

/-- The expressions with a comma before each. -/
inductive MoreItemsRendered : List Expr → List Word → Prop
  | nil : MoreItemsRendered [] []
  | cons {item : Expr} {rest : List Expr} {words more : List Word} : item.Rendered 0 words →
    MoreItemsRendered rest more →
    MoreItemsRendered (item :: rest) (sign .comma :: (words ++ more))

/-- The key, a colon and the value. -/
inductive EntryRendered : Expr × Expr → List Word → Prop
  | mk {key value : Expr} {words more : List Word} : key.Rendered 0 words →
    value.Rendered 0 more → EntryRendered (key, value) (words ++ sign .colon :: more)

/-- The entries with commas between them. -/
inductive EntriesRendered : List (Expr × Expr) → List Word → Prop
  | none : EntriesRendered [] []
  | some {first : Expr × Expr} {rest : List (Expr × Expr)} {words more : List Word} :
    EntryRendered first words → MoreEntriesRendered rest more →
    EntriesRendered (first :: rest) (words ++ more)

/-- The entries with a comma before each. -/
inductive MoreEntriesRendered : List (Expr × Expr) → List Word → Prop
  | nil : MoreEntriesRendered [] []
  | cons {entry : Expr × Expr} {rest : List (Expr × Expr)} {words more : List Word} :
    EntryRendered entry words → MoreEntriesRendered rest more →
    MoreEntriesRendered (entry :: rest) (sign .comma :: (words ++ more))

/-- The statement stands for the words. A function literal that is the value of a `let` loses
its own name to that of the `let`. -/
inductive Stmt.Rendered : Stmt → List Word → Prop
  | bind {name : String} {value : Expr} {span : Span} {words : List Word} :
    value.Rendered 0 words →
    Stmt.Rendered (.bind name (value.named name) span)
      (sign .letWord :: .name name :: sign .assign :: words)
  | ret {value : Expr} {span : Span} {words : List Word} : value.Rendered 0 words →
    Stmt.Rendered (.ret value span) (sign .returnWord :: words)
  | retNull {span : Span} : Stmt.Rendered (.retNull span) [sign .returnWord]
  | expr {value : Expr} {span : Span} {words : List Word} : value.Rendered 0 words →
    Stmt.Rendered (.expr value span) words

/-- The statements in order, with any number of semicolons before, between and after them. -/
inductive StmtsRendered : List Stmt → List Word → Prop
  | nil : StmtsRendered [] []
  | semicolon {statements : List Stmt} {words : List Word} : StmtsRendered statements words →
    StmtsRendered statements (sign .semicolon :: words)
  | cons {stmt : Stmt} {rest : List Stmt} {words more : List Word} : stmt.Rendered words →
    StmtsRendered rest more → StmtsRendered (stmt :: rest) (words ++ more)

/-- The statements of the block between braces. -/
inductive Block.Rendered : Block → List Word → Prop
  | mk {statements : List Stmt} {span : Span} {words : List Word} :
    StmtsRendered statements words → Block.Rendered (.mk statements span) (inBraces words)

end

/-- The statements of the program stand for the words. -/
def Program.Rendered (tree : Program) (words : List Word) : Prop :=
  StmtsRendered tree.statements words

namespace Expr

variable {expr : Expr} {words : List Word} {least : Nat}

/-- What holds together more tightly may stand where less is asked for. -/
theorem Rendered.mono (h : expr.Rendered least words) {fewer : Nat} (hle : fewer ≤ least) :
    expr.Rendered fewer words := by
  cases h with
  | plain hleast hwords => exact .plain (Nat.le_trans hle hleast) hwords
  | group hinner => exact .group hinner

theorem strength_withSpan (expr : Expr) (span : Span) :
    (expr.withSpan span).strength = expr.strength := by
  cases expr <;> rfl

theorem Unwrapped.withSpan (h : expr.Unwrapped words) (span : Span) :
    (expr.withSpan span).Unwrapped words := by
  cases h with
  | ident => exact .ident
  | integer hvalue => exact .integer hvalue
  | boolean => exact .boolean
  | string => exact .string
  | unary hoperand => exact .unary hoperand
  | binary hleft hright => exact .binary hleft hright
  | logical hleft hright => exact .logical hleft hright
  | bump hoperand => exact .bump hoperand
  | ifThen hcondition hblock => exact .ifThen hcondition hblock
  | ifElse hcondition hfirst hsecond => exact .ifElse hcondition hfirst hsecond
  | function hparameters hbody => exact .function hparameters hbody
  | array hitems => exact .array hitems
  | hash hentries => exact .hash hentries
  | call hcallee hitems => exact .call hcallee hitems
  | index hcollection hkey => exact .index hcollection hkey

/-- Where an expression is said to stand does not matter. -/
theorem Rendered.withSpan {least : Nat} {words : List Word} (h : expr.Rendered least words)
    (span : Span) : (expr.withSpan span).Rendered least words :=
  match h with
  | .plain hleast hwords => .plain (by rwa [strength_withSpan]) (hwords.withSpan span)
  | .group hinner => .group (hinner.withSpan span)

end Expr

/-! ### No tree stands for the end mark -/

namespace Word

/-- None of the words is the mark at the end. -/
def Endless (words : List Word) : Prop := ∀ word ∈ words, word.kind ≠ .eof

variable {words more : List Word}

theorem endless_nil : Endless [] := List.forall_mem_nil _

theorem Endless.cons {word : Word} (h : Endless words) (hword : word.kind ≠ .eof) :
    Endless (word :: words) := List.forall_mem_cons.mpr ⟨hword, h⟩

theorem Endless.append (h : Endless words) (hmore : Endless more) : Endless (words ++ more) :=
  List.forall_mem_append.mpr ⟨h, hmore⟩

theorem Endless.sign (h : Endless words) {kind : Token.Kind} (hk : isFixed kind = true) :
    Endless (Word.sign kind :: words) := by
  refine h.cons fun he => ?_
  rw [show kind = .eof from he] at hk
  cases hk

theorem Endless.enclosed (h : Endless words) {opening closing : Token.Kind}
    (ho : isFixed opening = true) (hc : isFixed closing = true) :
    Endless (Word.enclosed opening closing words) := (h.append (endless_nil.sign hc)).sign ho

theorem endless_names (texts : List String) : Endless (names texts) := by
  cases texts with
  | nil => exact endless_nil
  | cons first rest =>
    have hmore : Endless (moreNames rest) := by
      intro word hword
      obtain ⟨text, -, hmem⟩ := List.mem_flatMap.mp hword
      rw [List.mem_cons, List.mem_singleton] at hmem
      rcases hmem with rfl | rfl
      · exact Token.Kind.noConfusion
      · exact Token.Kind.noConfusion
    exact hmore.cons Token.Kind.noConfusion

theorem endless_name (named : Option String) : Endless (named.toList.map name) := by
  cases named with
  | none => exact endless_nil
  | some text => exact endless_nil.cons Token.Kind.noConfusion

end Word

mutual

theorem Expr.Rendered.endless {least : Nat} {expr : Expr} {words : List Word}
    (h : expr.Rendered least words) : Endless words :=
  match h with
  | .plain _ hwords => hwords.endless
  | .group hinner => hinner.endless.enclosed rfl rfl

theorem Expr.Unwrapped.endless {expr : Expr} {words : List Word} (h : expr.Unwrapped words) :
    Endless words :=
  match h with
  | .ident => endless_nil.cons Token.Kind.noConfusion
  | .integer _ => endless_nil.cons Token.Kind.noConfusion
  | .boolean => endless_nil.sign (by split <;> rfl)
  | .string => endless_nil.cons Token.Kind.noConfusion
  | .unary hoperand => hoperand.endless.sign (UnaryOp.isFixed_kind _)
  | .binary hleft hright => hleft.endless.append (hright.endless.sign (BinaryOp.isFixed_kind _))
  | .logical hleft hright => hleft.endless.append (hright.endless.sign (LogicalOp.isFixed_kind _))
  | .bump hoperand => hoperand.endless.append (endless_nil.sign (BumpOp.isFixed_kind _))
  | .ifThen hcondition hblock =>
    ((hcondition.endless.enclosed rfl rfl).append hblock.endless).sign rfl
  | .ifElse hcondition hfirst hsecond =>
    ((hcondition.endless.enclosed rfl rfl).append
      (hfirst.endless.append (hsecond.endless.sign rfl))).sign rfl
  | .function _ hbody =>
    ((endless_name _).append (((endless_names _).enclosed rfl rfl).append hbody.endless)).sign rfl
  | .array hitems => hitems.endless.enclosed rfl rfl
  | .hash hentries => hentries.endless.enclosed rfl rfl
  | .call hcallee hitems => hcallee.endless.append (hitems.endless.enclosed rfl rfl)
  | .index hcollection hkey => hcollection.endless.append (hkey.endless.enclosed rfl rfl)

theorem ItemsRendered.endless {items : List Expr} {words : List Word}
    (h : ItemsRendered items words) : Endless words :=
  match h with
  | .none => endless_nil
  | .some hfirst hmore => hfirst.endless.append hmore.endless

theorem MoreItemsRendered.endless {items : List Expr} {words : List Word}
    (h : MoreItemsRendered items words) : Endless words :=
  match h with
  | .nil => endless_nil
  | .cons hitem hmore => (hitem.endless.append hmore.endless).sign rfl

theorem EntryRendered.endless {entry : Expr × Expr} {words : List Word}
    (h : EntryRendered entry words) : Endless words :=
  match h with
  | .mk hkey hvalue => hkey.endless.append (hvalue.endless.sign rfl)

theorem EntriesRendered.endless {entries : List (Expr × Expr)} {words : List Word}
    (h : EntriesRendered entries words) : Endless words :=
  match h with
  | .none => endless_nil
  | .some hfirst hmore => hfirst.endless.append hmore.endless

theorem MoreEntriesRendered.endless {entries : List (Expr × Expr)} {words : List Word}
    (h : MoreEntriesRendered entries words) : Endless words :=
  match h with
  | .nil => endless_nil
  | .cons hentry hmore => (hentry.endless.append hmore.endless).sign rfl

theorem Stmt.Rendered.endless {stmt : Stmt} {words : List Word} (h : stmt.Rendered words) :
    Endless words :=
  match h with
  | .bind hvalue => ((hvalue.endless.sign rfl).cons Token.Kind.noConfusion).sign rfl
  | .ret hvalue => hvalue.endless.sign rfl
  | .retNull => endless_nil.sign rfl
  | .expr hvalue => hvalue.endless

theorem StmtsRendered.endless {statements : List Stmt} {words : List Word}
    (h : StmtsRendered statements words) : Endless words :=
  match h with
  | .nil => endless_nil
  | .semicolon hrest => hrest.endless.sign rfl
  | .cons hstmt hrest => hstmt.endless.append hrest.endless

theorem Block.Rendered.endless {block : Block} {words : List Word} (h : block.Rendered words) :
    Endless words :=
  match h with
  | .mk hstatements => hstatements.endless.enclosed rfl rfl

end

end Simian
