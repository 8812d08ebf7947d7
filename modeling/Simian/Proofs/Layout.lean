import Simian.Bytecode.Compiler
import Simian.Proofs.Decoding

/-!
# Where the code of a tree stands

The rules below relate a part of a tree to the stretch of finished code that stands for
it, together with the table of names before and after it. Jumps are given by the offsets
that they go to. The rules do not mention labels, the drafts of the code or the removal
of a last `pop`: that compiled code obeys them is a theorem of its own.

The code of a function is finished code too. The rule for a function literal joins the
two: the captures that the body asks for are what the enclosing code loads.
-/
namespace Simian

/-- What code refers to: the constants, the code itself for its jumps, the local slots that a call
reserves and the symbols that the closure captures. -/
structure Site where
  pool : Array Value
  code : Code
  locals : Nat
  captures : List Symbol
  /-- Whether this is the code of a function and not that of a unit. -/
  inFunction : Bool

/-- What becomes of the value of the last statement. -/
inductive Closing where
  /-- It stays on the stack as the value of a block. -/
  | leaves
  /-- It is returned as the result of a call. -/
  | returns
  deriving DecidableEq

/-- The operation for statements that have no value at the end. -/
def Closing.nothing : Closing → Opcode
  | leaves => .pushNull
  | returns => .returnNull

/-- The code from the first offset to the second pushes what the symbol stands for. -/
inductive Loads (site : Site) (symbol : Symbol) (p : Nat) : Nat → Prop where
  | global : symbol.storage = .globalSlot → symbol.index < maxGlobals →
    site.code.Holds p ⟨.getGlobal, [symbol.index]⟩ → Loads site symbol p (p + 3)
  | slot : symbol.storage = .localSlot → symbol.index < site.locals →
    site.code.Holds p ⟨.getLocal, [symbol.index]⟩ → Loads site symbol p (p + 2)
  | builtin {builtin : Builtin} : symbol.storage = .builtin →
    Builtin.ofIndex? symbol.index = some builtin → builtin.name = symbol.name →
    site.code.Holds p ⟨.getBuiltin, [symbol.index]⟩ → Loads site symbol p (p + 2)
  | captured {found : Symbol} : symbol.storage = .captured →
    site.captures[symbol.index]? = some found → found.name = symbol.name →
    site.code.Holds p ⟨.getFree, [symbol.index]⟩ → Loads site symbol p (p + 2)
  | self : symbol.storage = .self → site.inFunction = true →
    site.code.Holds p ⟨.currentClosure, []⟩ → Loads site symbol p (p + 1)

/-- The code pushes what the symbols stand for in turn. -/
inductive LoadsAll (site : Site) : Nat → List Symbol → Nat → Prop where
  | nil {p : Nat} : LoadsAll site p [] p
  | cons {p q r : Nat} {symbol : Symbol} {rest : List Symbol} :
    Loads site symbol p q → LoadsAll site q rest r → LoadsAll site p (symbol :: rest) r

/-- The table in which the body of a function literal is compiled. -/
def SymbolTable.opened (table : SymbolTable) (name : Option String) (parameters : List String) :
    SymbolTable :=
  parameters.foldl (fun table parameter => (table.define parameter).2)
    (match name with
      | some name => (table.enter.defineSelf name).2
      | none => table.enter)

mutual

/-- The expression stands between the two offsets, and its names are resolved in the first table,
which resolving turns into the second. -/
inductive ExprAt : Site → SymbolTable → Nat → Expr → SymbolTable → Nat → Prop where
  | integer {site t p value span} {index : Nat} :
    index < maxConstants → site.pool[index]? = some (.int value) →
    site.code.Holds p ⟨.constant, [index]⟩ →
    ExprAt site t p (.integer value span) t (p + 3)
  | string {site t p text span} {index : Nat} :
    index < maxConstants → site.pool[index]? = some (.str text) →
    site.code.Holds p ⟨.constant, [index]⟩ →
    ExprAt site t p (.string text span) t (p + 3)
  | boolean {site t p value span} :
    site.code.Holds p ⟨if value then .pushTrue else .pushFalse, []⟩ →
    ExprAt site t p (.boolean value span) t (p + 1)
  | ident {site t t' p q name span symbol} :
    t.resolve name = some (symbol, t') → Loads site symbol p q →
    ExprAt site t p (.ident name span) t' q
  | unary {site t t' p q op operand span} :
    ExprAt site t p operand t' q → site.code.Holds q ⟨Compile.opcodeOfUnary op, []⟩ →
    ExprAt site t p (.unary op operand span) t' (q + 1)
  | binary {site t t₁ t' p m q op left right span} :
    ExprAt site t p left t₁ m → ExprAt site t₁ m right t' q →
    site.code.Holds q ⟨Compile.opcodeOfBinary op, []⟩ →
    ExprAt site t p (.binary op left right span) t' (q + 1)
  | and {site t t₁ t' p m q left right span} :
    ExprAt site t p left t₁ m → site.code.Holds m ⟨.jumpNotTruthy, [q + 7]⟩ →
    ExprAt site t₁ (m + 3) right t' q → site.code.Holds q ⟨.jumpNotTruthy, [q + 7]⟩ →
    site.code.Holds (q + 3) ⟨.pushTrue, []⟩ → site.code.Holds (q + 4) ⟨.jump, [q + 8]⟩ →
    site.code.Holds (q + 7) ⟨.pushFalse, []⟩ →
    ExprAt site t p (.logical .and left right span) t' (q + 8)
  | or {site t t₁ t' p m q left right span} :
    ExprAt site t p left t₁ m → site.code.Holds m ⟨.jumpNotTruthy, [m + 7]⟩ →
    site.code.Holds (m + 3) ⟨.pushTrue, []⟩ → site.code.Holds (m + 4) ⟨.jump, [q + 8]⟩ →
    ExprAt site t₁ (m + 7) right t' q → site.code.Holds q ⟨.jumpNotTruthy, [q + 7]⟩ →
    site.code.Holds (q + 3) ⟨.pushTrue, []⟩ → site.code.Holds (q + 4) ⟨.jump, [q + 8]⟩ →
    site.code.Holds (q + 7) ⟨.pushFalse, []⟩ →
    ExprAt site t p (.logical .or left right span) t' (q + 8)
  | bump {site t t' p q op operand span} {index : Nat} :
    ExprAt site t p operand t' q →
    index < maxConstants → site.pool[index]? = some (.int 1) →
    site.code.Holds q ⟨.constant, [index]⟩ →
    site.code.Holds (q + 3) ⟨Compile.opcodeOfBinary op.binary, []⟩ →
    ExprAt site t p (.bump op operand span) t' (q + 4)
  | ifThen {site t t₁ t' p m q condition statements span span'} :
    ExprAt site t p condition t₁ m → site.code.Holds m ⟨.jumpNotTruthy, [q + 3]⟩ →
    TailAt .leaves site t₁ (m + 3) statements t' q → site.code.Holds q ⟨.jump, [q + 4]⟩ →
    site.code.Holds (q + 3) ⟨.pushNull, []⟩ →
    ExprAt site t p (.ifThen condition (.mk statements span) span') t' (q + 4)
  | ifElse {site t t₁ t₂ t' p m n q condition first second span span' span''} :
    ExprAt site t p condition t₁ m → site.code.Holds m ⟨.jumpNotTruthy, [n + 3]⟩ →
    TailAt .leaves site t₁ (m + 3) first t₂ n → site.code.Holds n ⟨.jump, [q]⟩ →
    TailAt .leaves site t₂ (n + 3) second t' q →
    ExprAt site t p (.ifElse condition (.mk first span) (.mk second span') span'') t' q
  | function {site t t₁ t' p q name parameters body span span'} {index id : Nat} {inner : Site} :
    parameters.length ≤ maxArguments →
    TailAt .returns inner (t.opened name parameters) 0 body t₁ inner.code.size →
    inner.inFunction = true → inner.pool = site.pool →
    inner.locals = t₁.inner.slots → inner.locals ≤ maxLocals →
    inner.captures = t₁.inner.captures.toList → inner.captures.length ≤ maxCaptures →
    t₁.leave? = some t' → LoadsAll site p inner.captures q →
    index < maxConstants → site.pool[index]? =
      some (.compiled id ⟨name, inner.code, inner.locals, parameters.length⟩) →
    site.code.Holds q ⟨.closure, [index, inner.captures.length]⟩ →
    ExprAt site t p (.function name parameters (.mk body span) span') t' (q + 4)
  | array {site t t' p q elements span} :
    elements.length ≤ maxElements → ExprsAt site t p elements t' q →
    site.code.Holds q ⟨.array, [elements.length]⟩ →
    ExprAt site t p (.array elements span) t' (q + 3)
  | hash {site t t' p q pairs span} :
    pairs.length * 2 ≤ maxElements → EntriesAt site t p pairs t' q →
    site.code.Holds q ⟨.hash, [pairs.length * 2]⟩ →
    ExprAt site t p (.hash pairs span) t' (q + 3)
  | call {site t t₁ t' p m q callee arguments span} :
    arguments.length ≤ maxArguments → ExprAt site t p callee t₁ m →
    ExprsAt site t₁ m arguments t' q → site.code.Holds q ⟨.call, [arguments.length]⟩ →
    ExprAt site t p (.call callee arguments span) t' (q + 2)
  | index {site t t₁ t' p m q collection key span} :
    ExprAt site t p collection t₁ m → ExprAt site t₁ m key t' q →
    site.code.Holds q ⟨.index, []⟩ →
    ExprAt site t p (.index collection key span) t' (q + 1)

/-- The expressions stand one after the other. -/
inductive ExprsAt : Site → SymbolTable → Nat → List Expr → SymbolTable → Nat → Prop where
  | nil {site t p} : ExprsAt site t p [] t p
  | cons {site t t₁ t' p m q item rest} :
    ExprAt site t p item t₁ m → ExprsAt site t₁ m rest t' q →
    ExprsAt site t p (item :: rest) t' q

/-- The keys and values stand one after the other. -/
inductive EntriesAt : Site → SymbolTable → Nat → List (Expr × Expr) → SymbolTable → Nat → Prop where
  | nil {site t p} : EntriesAt site t p [] t p
  | cons {site t t₁ t₂ t' p m n q key value rest} :
    ExprAt site t p key t₁ m → ExprAt site t₁ m value t₂ n → EntriesAt site t₂ n rest t' q →
    EntriesAt site t p ((key, value) :: rest) t' q

/-- A statement that leaves nothing on the stack. -/
inductive StmtAt : Site → SymbolTable → Nat → Stmt → SymbolTable → Nat → Prop where
  | bindGlobal {site t t₁ t' p q name value span symbol} :
    ExprAt site t p value t₁ q → t₁.define name = (symbol, t') → symbol.storage = .globalSlot →
    symbol.index < maxGlobals → site.code.Holds q ⟨.setGlobal, [symbol.index]⟩ →
    StmtAt site t p (.bind name value span) t' (q + 3)
  | bindLocal {site t t₁ t' p q name value span symbol} :
    ExprAt site t p value t₁ q → t₁.define name = (symbol, t') → symbol.storage = .localSlot →
    symbol.index < site.locals → site.code.Holds q ⟨.setLocal, [symbol.index]⟩ →
    StmtAt site t p (.bind name value span) t' (q + 2)
  | ret {site t t' p q value span} :
    ExprAt site t p value t' q → site.code.Holds q ⟨.returnValue, []⟩ →
    StmtAt site t p (.ret value span) t' (q + 1)
  | retNull {site t p span} :
    site.code.Holds p ⟨.returnNull, []⟩ → StmtAt site t p (.retNull span) t (p + 1)
  | expr {site t t' p q value span} :
    ExprAt site t p value t' q → site.code.Holds q ⟨.pop, []⟩ →
    StmtAt site t p (.expr value span) t' (q + 1)

/-- The statements of a block or of a function body, whose last value is left or returned. -/
inductive TailAt : Closing → Site → SymbolTable → Nat → List Stmt → SymbolTable → Nat → Prop where
  | nil {closing site t p} :
    site.code.Holds p ⟨closing.nothing, []⟩ → TailAt closing site t p [] t (p + 1)
  | bind {closing site t t' p q name value span} :
    StmtAt site t p (.bind name value span) t' q → site.code.Holds q ⟨closing.nothing, []⟩ →
    TailAt closing site t p [.bind name value span] t' (q + 1)
  | ret {closing site t t' p q value span} :
    StmtAt site t p (.ret value span) t' q → TailAt closing site t p [.ret value span] t' q
  | retNull {closing site t t' p q span} :
    StmtAt site t p (.retNull span) t' q → TailAt closing site t p [.retNull span] t' q
  | value {site t t' p q value span} :
    ExprAt site t p value t' q → TailAt .leaves site t p [.expr value span] t' q
  | result {site t t' p q value span} :
    ExprAt site t p value t' q → site.code.Holds q ⟨.returnValue, []⟩ →
    TailAt .returns site t p [.expr value span] t' (q + 1)
  | cons {closing site t t₁ t' p m q statement next rest} :
    StmtAt site t p statement t₁ m → TailAt closing site t₁ m (next :: rest) t' q →
    TailAt closing site t p (statement :: next :: rest) t' q

end

/-- The statements of a program. -/
inductive StmtsAt (site : Site) : SymbolTable → Nat → List Stmt → SymbolTable → Nat → Prop where
  | nil {t p} : StmtsAt site t p [] t p
  | cons {t t₁ t' p m q statement rest} :
    StmtAt site t p statement t₁ m → StmtsAt site t₁ m rest t' q →
    StmtsAt site t p (statement :: rest) t' q

end Simian
