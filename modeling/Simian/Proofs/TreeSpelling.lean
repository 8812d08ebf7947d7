import Simian.Proofs.WrittenTrees

/-!
# A way to write every tree

The words of a tree with as few parentheses as it can do with, and the text of words with
one space between any two. A tree may be written so if its names are names, its integers
are not negative, its parameters are distinct and a function that is the value of a `let`
goes by that name (`Program.isWritable`).
-/
namespace Simian

open Word

/-! ### Texts -/

/-- The words with one space between any two. -/
def Word.line : List Word → List Char
  | [] => []
  | [last] => last.text
  | first :: next :: rest => first.text ++ ' ' :: line (next :: rest)

/-- A space in front is one more space in front of the first word. -/
theorem Spaced.blank {words : List Word} {text : List Char} (h : Spaced words text) :
    Spaced words (' ' :: text) := by
  cases h with
  | nil gap => exact .nil (gap + 1)
  | cons gap hrest hhead => exact .cons (gap + 1) hrest hhead

theorem spaced_line (words : List Word) : Spaced words (line words) := by
  induction words with
  | nil => exact .nil 0
  | cons first rest ih =>
    cases rest with
    | nil =>
      have hlast : Spaced [first] (List.replicate 0 ' ' ++ first.text ++ List.replicate 0 ' ') :=
        .cons 0 (.nil 0) fun c hc => absurd hc (Option.not_mem_none c)
      rwa [List.replicate_zero, List.nil_append, List.append_nil] at hlast
    | cons next rest =>
      exact .cons 0 ih.blank fun c hc => (Option.mem_some.mp hc).symm

/-! ### Words -/

/-- The words of an operand, in parentheses if it binds too weakly for where it stands. -/
def Expr.held (operand : Expr) (least : Nat) (words : List Word) : List Word :=
  if least ≤ operand.strength.rank then words else inParens words

theorem Expr.Plain.written {operand : Expr} {words : List Word} (h : operand.Plain words) :
    operand.Written 0 words := .plain (Nat.zero_le _) h

theorem Expr.Plain.held {operand : Expr} {words : List Word} (h : operand.Plain words)
    (least : Nat) : operand.Written least (operand.held least words) := by
  unfold Expr.held
  split
  next hleast => exact .plain hleast h
  next => exact .group h.written

mutual

/-- The words of the expression, without parentheses around it. -/
def Expr.words : Expr → List Word
  | .ident name _ => [.name name]
  | .integer value _ => [.number value.toNatClampNeg]
  | .boolean value _ => [.sign (if value then .trueWord else .falseWord)]
  | .string value _ => [.string value]
  | .unary op operand _ => sign op.kind :: operand.held Precedence.unary.rank operand.words
  | .binary op left right _ =>
    left.held (Precedence.ofKind op.kind).rank left.words ++
      sign op.kind :: right.held ((Precedence.ofKind op.kind).rank + 1) right.words
  | .logical op left right _ =>
    left.held (Precedence.ofKind op.kind).rank left.words ++
      sign op.kind :: right.held ((Precedence.ofKind op.kind).rank + 1) right.words
  | .bump op operand _ =>
    operand.held (Precedence.unary.rank + 1) operand.words ++ [sign op.kind]
  | .ifThen condition thenBlock _ =>
    sign .ifWord :: (inParens condition.words ++ thenBlock.words)
  | .ifElse condition thenBlock elseBlock _ =>
    sign .ifWord :: (inParens condition.words ++
      (thenBlock.words ++ sign .elseWord :: elseBlock.words))
  | .function name parameters body _ =>
    sign .fnWord :: (name.toList.map Word.name ++ (inParens (names parameters) ++ body.words))
  | .array elements _ => inBrackets (itemWords elements)
  | .hash entries _ => inBraces (entryWords entries)
  | .call callee arguments _ =>
    callee.held (Precedence.unary.rank + 1) callee.words ++ inParens (itemWords arguments)
  | .index collection key _ =>
    collection.held (Precedence.unary.rank + 1) collection.words ++ inBrackets key.words

def itemWords : List Expr → List Word
  | [] => []
  | first :: rest => first.words ++ moreItemWords rest

def moreItemWords : List Expr → List Word
  | [] => []
  | item :: rest => sign .comma :: (item.words ++ moreItemWords rest)

def entryWords : List (Expr × Expr) → List Word
  | [] => []
  | (key, value) :: rest => key.words ++ sign .colon :: (value.words ++ moreEntryWords rest)

def moreEntryWords : List (Expr × Expr) → List Word
  | [] => []
  | (key, value) :: rest =>
    sign .comma :: (key.words ++ sign .colon :: (value.words ++ moreEntryWords rest))

def Stmt.words : Stmt → List Word
  | .bind name value _ =>
    sign .letWord :: .name name :: sign .assign :: (value.words ++ [sign .semicolon])
  | .ret value _ => sign .returnWord :: (value.words ++ [sign .semicolon])
  | .retNull _ => [sign .returnWord, sign .semicolon]
  | .expr value _ => value.words ++ [sign .semicolon]

def stmtWords : List Stmt → List Word
  | [] => []
  | stmt :: rest => stmt.words ++ stmtWords rest

def Block.words : Block → List Word
  | .mk statements _ => inBraces (stmtWords statements)

end

def Program.words (tree : Program) : List Word := stmtWords tree.statements

/-! ### Trees with words -/

/-- Whether the expression is what it is when bound to the name: a function has to go by it. -/
def Expr.isNamed (text : String) : Expr → Bool
  | .function name .. => name == some text
  | _ => true

mutual

/-- Whether the texts and numbers in the expression may be written. -/
def Expr.isWritable : Expr → Bool
  | .ident name _ => Token.isName name
  | .integer value _ => decide (0 ≤ value)
  | .boolean .. => true
  | .string .. => true
  | .unary _ operand _ => operand.isWritable
  | .binary _ left right _ => left.isWritable && right.isWritable
  | .logical _ left right _ => left.isWritable && right.isWritable
  | .bump _ operand _ => operand.isWritable
  | .ifThen condition thenBlock _ => condition.isWritable && thenBlock.isWritable
  | .ifElse condition thenBlock elseBlock _ =>
    condition.isWritable && (thenBlock.isWritable && elseBlock.isWritable)
  | .function name parameters body _ =>
    name.all Token.isName && (parameters.all Token.isName &&
      (decide parameters.Nodup && body.isWritable))
  | .array elements _ => areWritable elements
  | .hash entries _ => areWritableEntries entries
  | .call callee arguments _ => callee.isWritable && areWritable arguments
  | .index collection key _ => collection.isWritable && key.isWritable

def areWritable : List Expr → Bool
  | [] => true
  | item :: rest => item.isWritable && areWritable rest

def areWritableEntries : List (Expr × Expr) → Bool
  | [] => true
  | (key, value) :: rest => key.isWritable && (value.isWritable && areWritableEntries rest)

def Stmt.isWritable : Stmt → Bool
  | .bind name value _ => Token.isName name && (value.isNamed name && value.isWritable)
  | .ret value _ => value.isWritable
  | .retNull _ => true
  | .expr value _ => value.isWritable

def areWritableStmts : List Stmt → Bool
  | [] => true
  | stmt :: rest => stmt.isWritable && areWritableStmts rest

def Block.isWritable : Block → Bool
  | .mk statements _ => areWritableStmts statements

end

def Program.isWritable (tree : Program) : Bool := areWritableStmts tree.statements

theorem Expr.named_of_isNamed {text : String} {expr : Expr} (h : expr.isNamed text = true) :
    expr.named text = expr := by
  cases expr with
  | function name parameters body span =>
    have hname : name = some text := eq_of_beq h
    rw [hname, named]
  | _ => rfl

mutual

theorem Expr.plain_words {tree : Expr} (h : tree.isWritable = true) : tree.Plain tree.words := by
  match tree with
  | .ident name _ => exact .ident h
  | .integer value _ => exact .integer (of_decide_eq_true h)
  | .boolean value _ => exact .boolean
  | .string value _ => exact .string
  | .unary op operand _ => exact .unary ((operand.plain_words h).held _)
  | .binary op left right _ =>
    obtain ⟨hleft, hright⟩ := Bool.and_eq_true_iff.mp h
    exact .binary ((left.plain_words hleft).held _) ((right.plain_words hright).held _)
  | .logical op left right _ =>
    obtain ⟨hleft, hright⟩ := Bool.and_eq_true_iff.mp h
    exact .logical ((left.plain_words hleft).held _) ((right.plain_words hright).held _)
  | .bump op operand _ => exact .bump ((operand.plain_words h).held _)
  | .ifThen condition (.mk statements _) _ =>
    obtain ⟨hcondition, hblock⟩ := Bool.and_eq_true_iff.mp h
    exact .ifThen (condition.plain_words hcondition).written (written_stmtWords hblock)
  | .ifElse condition (.mk first _) (.mk second _) _ =>
    obtain ⟨hcondition, hblocks⟩ := Bool.and_eq_true_iff.mp h
    obtain ⟨hfirst, hsecond⟩ := Bool.and_eq_true_iff.mp hblocks
    exact .ifElse (condition.plain_words hcondition).written (written_stmtWords hfirst)
      (written_stmtWords hsecond)
  | .function name parameters (.mk statements _) _ =>
    obtain ⟨hname, hrest⟩ := Bool.and_eq_true_iff.mp h
    obtain ⟨hparameters, hrest⟩ := Bool.and_eq_true_iff.mp hrest
    obtain ⟨hdistinct, hblock⟩ := Bool.and_eq_true_iff.mp hrest
    exact .function ((Option.all_eq_true _ _).mp hname) (List.all_eq_true.mp hparameters)
      (of_decide_eq_true hdistinct) (written_stmtWords hblock)
  | .array elements _ => exact .array (written_itemWords h)
  | .hash entries _ => exact .hash (written_entryWords h)
  | .call callee arguments _ =>
    obtain ⟨hcallee, harguments⟩ := Bool.and_eq_true_iff.mp h
    exact .call ((callee.plain_words hcallee).held _) (written_itemWords harguments)
  | .index collection key _ =>
    obtain ⟨hcollection, hkey⟩ := Bool.and_eq_true_iff.mp h
    exact .index ((collection.plain_words hcollection).held _)
      (key.plain_words hkey).written

theorem written_itemWords {items : List Expr} (h : areWritable items = true) :
    ItemsWritten items (itemWords items) := by
  match items with
  | [] => exact .none
  | first :: rest =>
    obtain ⟨hfirst, hrest⟩ := Bool.and_eq_true_iff.mp h
    exact .some (first.plain_words hfirst).written (written_moreItemWords hrest)

theorem written_moreItemWords {items : List Expr} (h : areWritable items = true) :
    MoreItemsWritten items (moreItemWords items) := by
  match items with
  | [] => exact .nil
  | item :: rest =>
    obtain ⟨hitem, hrest⟩ := Bool.and_eq_true_iff.mp h
    exact .cons (item.plain_words hitem).written (written_moreItemWords hrest)

theorem written_entryWords {entries : List (Expr × Expr)} (h : areWritableEntries entries = true) :
    EntriesWritten entries (entryWords entries) := by
  match entries with
  | [] => exact .none
  | (key, value) :: rest =>
    obtain ⟨hkey, hrest⟩ := Bool.and_eq_true_iff.mp h
    obtain ⟨hvalue, hrest⟩ := Bool.and_eq_true_iff.mp hrest
    exact .some (key.plain_words hkey).written
      (value.plain_words hvalue).written (written_moreEntryWords hrest)

theorem written_moreEntryWords {entries : List (Expr × Expr)}
    (h : areWritableEntries entries = true) :
    MoreEntriesWritten entries (moreEntryWords entries) := by
  match entries with
  | [] => exact .nil
  | (key, value) :: rest =>
    obtain ⟨hkey, hrest⟩ := Bool.and_eq_true_iff.mp h
    obtain ⟨hvalue, hrest⟩ := Bool.and_eq_true_iff.mp hrest
    exact .cons (key.plain_words hkey).written
      (value.plain_words hvalue).written (written_moreEntryWords hrest)

theorem Stmt.written_words {stmt : Stmt} (h : stmt.isWritable = true) :
    stmt.Written stmt.words := by
  match stmt with
  | .bind name value _ =>
    obtain ⟨hname, hrest⟩ := Bool.and_eq_true_iff.mp h
    obtain ⟨hnamed, hvalue⟩ := Bool.and_eq_true_iff.mp hrest
    exact .bind hname (Expr.named_of_isNamed hnamed)
      (value.plain_words hvalue).written
  | .ret value _ => exact .ret (value.plain_words h).written
  | .retNull _ => exact .retNull
  | .expr value _ => exact .expr (value.plain_words h).written

theorem written_stmtWords {statements : List Stmt} (h : areWritableStmts statements = true) :
    StmtsWritten statements (stmtWords statements) := by
  match statements with
  | [] => exact .nil
  | stmt :: rest =>
    obtain ⟨hstmt, hrest⟩ := Bool.and_eq_true_iff.mp h
    exact .cons (stmt.written_words hstmt) (written_stmtWords hrest)

end

/-- Every writable tree may be written as its words. -/
theorem Program.written_words {tree : Program} (h : tree.isWritable = true) :
    tree.Written tree.words := written_stmtWords h

end Simian
