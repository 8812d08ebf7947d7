import Simian.Proofs.TokenTiling
import Simian.Proofs.WrittenTrees
import Simian.Tree.Numeral

/-!
# The tokens that a tree is derived from

A derivation says of every node of a tree which tokens it stands for: those at the places from a
first to a last one. It gives the node the span from the start of the one to the end of the other,
with the parentheses around an expression counted in. The tokens of a source stand one behind the
other, so the spans of the nodes are nested as the nodes are (`Node.Exact`).
-/
namespace Simian

/-! ### Places in a stream -/

namespace TokenStream

def tokenAt (stream : TokenStream) (place : Nat) : Token := (stream.scannedAt place).token

/-- The span from the start of one token to the end of another. -/
def between (stream : TokenStream) (first last : Nat) : Span :=
  ⟨(stream.tokenAt first).span.start, (stream.tokenAt last).span.stop⟩

theorem span_tokenAt (stream : TokenStream) (place : Nat) :
    (stream.tokenAt place).span = stream.between place place := rfl

/-- A token of the kind stands at the place. -/
def Has (stream : TokenStream) (place : Nat) (kind : Token.Kind) : Prop :=
  (stream.tokenAt place).kind = kind

/-- Each token ends before the next one starts, and all but the end mark have a text. Behind the
last token comes the end mark again and again. -/
structure Ascending (stream : TokenStream) : Prop where
  ends : ∀ place, stream.pending.length ≤ place → stream.Has place .eof
  start_le_stop : ∀ place, (stream.tokenAt place).span.start ≤ (stream.tokenAt place).span.stop
  apart : ∀ earlier later, earlier < later →
    (stream.tokenAt earlier).span.stop ≤ (stream.tokenAt later).span.start
  nonempty : ∀ place, ¬stream.Has place .eof →
    (stream.tokenAt place).span.start < (stream.tokenAt place).span.stop

theorem ascending_ofString {source : String} (hsize : source.utf8ByteSize < UInt32.size) :
    (ofString source).Ascending := by
  obtain ⟨htiles, hend⟩ := tiles_ofString hsize
  generalize ofString source = stream at htiles hend
  have hwithin : ∀ scanned ∈ stream.pending,
      scanned.token.span.stop ≤ byteLength source.toList := by
    intro scanned hm
    obtain ⟨front, text, back, hsource, -, -, hplaced⟩ :=
      htiles.exists_placed (List.mem_map_of_mem hm)
    rw [hplaced.span_eq, ← List.nil_append source.toList, hsource, ← List.append_assoc,
      Cursor.byteLength_append, Cursor.byteLength_append]
    exact Nat.le_add_right _ _
  -- A place is that of a token in the source, or behind all of them.
  have hplace : ∀ place, (∃ h : place < stream.pending.length,
      stream.tokenAt place = stream.pending[place].token) ∨
        stream.pending.length ≤ place ∧ stream.tokenAt place = stream.endMark := by
    intro place
    rcases Nat.lt_or_ge place stream.pending.length with hlt | hge
    · exact .inl ⟨hlt, by rw [tokenAt, scannedAt, List.getElem?_eq_getElem hlt]; rfl⟩
    · exact .inr ⟨hge, by rw [tokenAt, scannedAt, List.getElem?_eq_none hge]; rfl⟩
  have hpos : ∀ scanned ∈ stream.pending, scanned.token.span.start < scanned.token.span.stop :=
    fun scanned hm => htiles.start_lt_stop (List.mem_map_of_mem hm)
  refine ⟨fun place hle => ?_, fun place => ?_, fun earlier later hlt => ?_, fun place hne => ?_⟩
  · rcases hplace place with ⟨hlt, _⟩ | ⟨_, htoken⟩
    · exact absurd hlt (Nat.not_lt_of_le hle)
    · rw [Has, htoken, hend, Token.endOf]
  · rcases hplace place with ⟨_, htoken⟩ | ⟨_, htoken⟩
    · rw [htoken]
      exact Nat.le_of_lt (hpos _ (List.getElem_mem _))
    · exact Nat.le_of_eq (by rw [htoken, hend, Token.endOf])
  · rcases hplace later with ⟨hin, hlater⟩ | ⟨_, hlater⟩
    · have hbefore := Nat.lt_trans hlt hin
      have hordered := List.pairwise_iff_getElem.mp htiles.pairwise earlier later
        (by rwa [List.length_map]) (by rwa [List.length_map]) hlt
      rw [List.getElem_map, List.getElem_map] at hordered
      rw [hlater, tokenAt, scannedAt, List.getElem?_eq_getElem hbefore]
      exact hordered
    · rw [hlater, hend]
      rcases hplace earlier with ⟨_, hearlier⟩ | ⟨_, hearlier⟩
      · rw [hearlier]
        exact hwithin _ (List.getElem_mem _)
      · exact Nat.le_of_eq (by rw [hearlier, hend, Token.endOf])
  · rcases hplace place with ⟨_, htoken⟩ | ⟨_, htoken⟩
    · rw [htoken]
      exact hpos _ (List.getElem_mem _)
    · exact absurd (by rw [Has, htoken, hend, Token.endOf]) hne

namespace Ascending

variable {stream : TokenStream} {first mid last stop : Nat} (h : stream.Ascending)
include h

theorem start_le (hle : first ≤ last) :
    (stream.tokenAt first).span.start ≤ (stream.tokenAt last).span.start := by
  rcases Nat.lt_or_eq_of_le hle with hlt | rfl
  · exact Nat.le_trans (h.start_le_stop first) (h.apart first last hlt)
  · exact Nat.le_refl _

theorem stop_le (hle : first ≤ last) :
    (stream.tokenAt first).span.stop ≤ (stream.tokenAt last).span.stop := by
  rcases Nat.lt_or_eq_of_le hle with hlt | rfl
  · exact Nat.le_trans (h.apart first last hlt) (h.start_le_stop last)
  · exact Nat.le_refl _

/-- Merging with a later span leaves out nothing between the two. -/
theorem merge_between (hfirst : first ≤ mid) (hlast : stop ≤ last) :
    (stream.between first stop).merge (stream.between mid last) = stream.between first last := by
  rw [between, between, Span.merge, Nat.min_eq_left (h.start_le hfirst),
    Nat.max_eq_right (h.stop_le hlast)]
  rfl

theorem merge_tokens (hle : first ≤ last) :
    (stream.tokenAt first).span.merge (stream.tokenAt last).span = stream.between first last :=
  h.merge_between hle hle

end Ascending

end TokenStream

/-! ### Derivations -/

section

variable (stream : TokenStream) {α : Type} (part : α → Nat → Nat → Prop)

/-- Parts with commas between. -/
inductive Separated : List α → Nat → Nat → Prop where
  | one {item : α} {first last : Nat} : part item first last → Separated [item] first last
  | more {items : List α} {item : α} {first mid last : Nat} : Separated items first mid →
    stream.Has (mid + 1) .comma → part item (mid + 2) last → Separated (items ++ [item]) first last

/-- Parts with commas between, up to the closing token. -/
inductive Closed (closing : Token.Kind) : List α → Nat → Nat → Prop where
  | none {place : Nat} : stream.Has place closing → Closed closing [] place place
  | some {items : List α} {first last : Nat} : Separated stream part items first last →
    stream.Has (last + 1) closing → Closed closing items first (last + 1)

/-- A key, a colon and a value. -/
inductive Paired : α × α → Nat → Nat → Prop where
  | mk {key value : α} {first mid last : Nat} : part key first mid →
    stream.Has (mid + 1) .colon → part value (mid + 2) last → Paired (key, value) first last

/-- Parts one behind the other, with semicolons before and behind them, up to the last place,
which is left out. -/
inductive Sequence : List α → Nat → Nat → Prop where
  | nil {place : Nat} : Sequence [] place place
  | semicolon {items : List α} {first last : Nat} : Sequence items first last →
    stream.Has last .semicolon → Sequence items first (last + 1)
  | more {items : List α} {item : α} {first mid last : Nat} : Sequence items first mid →
    part item mid last → Sequence (items ++ [item]) first (last + 1)

end

/-- A name in a list of parameters. -/
inductive NameFrom (stream : TokenStream) : String → Nat → Nat → Prop where
  | mk {place : Nat} : stream.Has place .ident →
    NameFrom stream (stream.tokenAt place).literal place place

/-- An expression, and the parentheses around it, which belong to its span. -/
inductive Grouped (stream : TokenStream) (part : Expr → Nat → Nat → Prop) :
    Expr → Nat → Nat → Prop where
  | bare {expr : Expr} {first last : Nat} : first ≤ last → ¬stream.Has first .eof →
    part expr first last → Grouped stream part expr first last
  | parens {expr : Expr} {first last : Nat} : stream.Has first .leftParen →
    Grouped stream part expr (first + 1) last → stream.Has (last + 1) .rightParen →
    Grouped stream part (expr.withSpan (stream.between first (last + 1))) first (last + 1)

mutual

/-- An expression from its first token to its last one, without parentheses around it. A function
literal may have got the name of its `let`. -/
inductive BareFrom (stream : TokenStream) : Expr → Nat → Nat → Prop where
  | ident {place : Nat} : stream.Has place .ident →
    BareFrom stream (.ident (stream.tokenAt place).literal (stream.between place place)) place place
  | integer {place : Nat} {value : Int64} : stream.Has place .int →
    Numeral.read? (stream.tokenAt place).literal.toList = some value →
    BareFrom stream (.integer value (stream.between place place)) place place
  | boolean {place : Nat} {value : Bool} :
    stream.Has place (if value then .trueWord else .falseWord) →
    BareFrom stream (.boolean value (stream.between place place)) place place
  | string {place : Nat} : stream.Has place .string →
    BareFrom stream (.string (stream.tokenAt place).literal (stream.between place place))
      place place
  | unary {op : UnaryOp} {operand : Expr} {first last : Nat} : stream.Has first op.kind →
    Grouped stream (BareFrom stream) operand (first + 1) last →
    BareFrom stream (.unary op operand (stream.between first last)) first last
  | binary {op : BinaryOp} {left right : Expr} {first mid last : Nat} :
    Grouped stream (BareFrom stream) left first mid → stream.Has (mid + 1) op.kind →
    Grouped stream (BareFrom stream) right (mid + 2) last →
    BareFrom stream (.binary op left right (stream.between first last)) first last
  | logical {op : LogicalOp} {left right : Expr} {first mid last : Nat} :
    Grouped stream (BareFrom stream) left first mid → stream.Has (mid + 1) op.kind →
    Grouped stream (BareFrom stream) right (mid + 2) last →
    BareFrom stream (.logical op left right (stream.between first last)) first last
  | bump {op : BumpOp} {operand : Expr} {first mid : Nat} :
    Grouped stream (BareFrom stream) operand first mid → stream.Has (mid + 1) op.kind →
    BareFrom stream (.bump op operand (stream.between first (mid + 1))) first (mid + 1)
  | ifThen {condition : Expr} {thenBlock : Block} {first mid last : Nat} :
    stream.Has first .ifWord → stream.Has (first + 1) .leftParen →
    Grouped stream (BareFrom stream) condition (first + 2) mid →
    stream.Has (mid + 1) .rightParen → BlockFrom stream thenBlock (mid + 2) last →
    BareFrom stream (.ifThen condition thenBlock (stream.between first last)) first last
  | ifElse {condition : Expr} {thenBlock elseBlock : Block} {first mid stop last : Nat} :
    stream.Has first .ifWord → stream.Has (first + 1) .leftParen →
    Grouped stream (BareFrom stream) condition (first + 2) mid →
    stream.Has (mid + 1) .rightParen → BlockFrom stream thenBlock (mid + 2) stop →
    stream.Has (stop + 1) .elseWord → BlockFrom stream elseBlock (stop + 2) last →
    BareFrom stream (.ifElse condition thenBlock elseBlock (stream.between first last)) first last
  | function {name : Option String} {names : List String} {body : Block}
    {first opening close last : Nat} : stream.Has first .fnWord →
    opening = first + 1 ∨ stream.Has (first + 1) .ident ∧ opening = first + 2 →
    stream.Has opening .leftParen →
    Closed stream (NameFrom stream) .rightParen names (opening + 1) close →
    BlockFrom stream body (close + 1) last →
    BareFrom stream (.function name names body (stream.between first last)) first last
  | array {elements : List Expr} {first last : Nat} : stream.Has first .leftBracket →
    Closed stream (Grouped stream (BareFrom stream)) .rightBracket elements (first + 1) last →
    BareFrom stream (.array elements (stream.between first last)) first last
  | hash {entries : List (Expr × Expr)} {first last : Nat} : stream.Has first .leftBrace →
    Closed stream (Paired stream (Grouped stream (BareFrom stream))) .rightBrace entries
      (first + 1) last →
    BareFrom stream (.hash entries (stream.between first last)) first last
  | call {callee : Expr} {arguments : List Expr} {first mid last : Nat} :
    Grouped stream (BareFrom stream) callee first mid → stream.Has (mid + 1) .leftParen →
    Closed stream (Grouped stream (BareFrom stream)) .rightParen arguments (mid + 2) last →
    BareFrom stream (.call callee arguments (stream.between first last)) first last
  | index {collection key : Expr} {first mid last : Nat} :
    Grouped stream (BareFrom stream) collection first mid → stream.Has (mid + 1) .leftBracket →
    Grouped stream (BareFrom stream) key (mid + 2) last → stream.Has (last + 1) .rightBracket →
    BareFrom stream (.index collection key (stream.between first (last + 1))) first (last + 1)

/-- A statement, without a semicolon behind it. -/
inductive StmtFrom (stream : TokenStream) : Stmt → Nat → Nat → Prop where
  | bind {value : Expr} {first last : Nat} : stream.Has first .letWord →
    stream.Has (first + 1) .ident → stream.Has (first + 2) .assign →
    Grouped stream (BareFrom stream) value (first + 3) last →
    StmtFrom stream (.bind (stream.tokenAt (first + 1)).literal
      (value.named (stream.tokenAt (first + 1)).literal) (stream.between first last)) first last
  | ret {value : Expr} {first last : Nat} : stream.Has first .returnWord →
    Grouped stream (BareFrom stream) value (first + 1) last →
    StmtFrom stream (.ret value (stream.between first last)) first last
  | retNull {place : Nat} : stream.Has place .returnWord →
    StmtFrom stream (.retNull (stream.between place place)) place place
  | expr {value : Expr} {first last : Nat} : Grouped stream (BareFrom stream) value first last →
    StmtFrom stream (.expr value (stream.between first last)) first last

/-- A block from its opening to its closing brace. -/
inductive BlockFrom (stream : TokenStream) : Block → Nat → Nat → Prop where
  | mk {statements : List Stmt} {first last : Nat} : stream.Has first .leftBrace →
    Sequence stream (StmtFrom stream) statements (first + 1) last → stream.Has last .rightBrace →
    BlockFrom stream (.mk statements (stream.between first last)) first last

end

/-- An expression from its first token to its last one, the parentheses around it included. -/
abbrev ExprFrom (stream : TokenStream) : Expr → Nat → Nat → Prop := Grouped stream (BareFrom stream)

/-! ### The nodes of a tree -/

/-- A node of a tree, whatever it is. -/
inductive Node where
  | expr (tree : Expr)
  | stmt (tree : Stmt)
  | block (tree : Block)

/-- The nodes right below an expression, in the order of the source. -/
def Expr.children : Expr → List Node
  | ident .. | integer .. | boolean .. | string .. => []
  | unary _ operand _ | bump _ operand _ => [.expr operand]
  | binary _ left right _ | logical _ left right _ => [.expr left, .expr right]
  | ifThen condition thenBlock _ => [.expr condition, .block thenBlock]
  | ifElse condition thenBlock elseBlock _ =>
    [.expr condition, .block thenBlock, .block elseBlock]
  | function _ _ body _ => [.block body]
  | array elements _ => elements.map .expr
  | hash entries _ => entries.flatMap fun entry => [.expr entry.1, .expr entry.2]
  | call callee arguments _ => .expr callee :: arguments.map .expr
  | index collection key _ => [.expr collection, .expr key]

def Stmt.children : Stmt → List Node
  | bind _ value _ | ret value _ | expr value _ => [.expr value]
  | retNull _ => []

@[simp] theorem Expr.children_withSpan (expr : Expr) (span : Span) :
    (expr.withSpan span).children = expr.children := by
  cases expr <;> rfl

namespace Node

def span : Node → Span
  | .expr tree => tree.span
  | .stmt tree => tree.span
  | .block tree => tree.span

def children : Node → List Node
  | .expr tree => tree.children
  | .stmt tree => tree.children
  | .block tree => tree.statements.map .stmt

/-- The node is derived from the tokens at the places from the first to the last one. -/
def From (stream : TokenStream) : Node → Nat → Nat → Prop
  | .expr tree => ExprFrom stream tree
  | .stmt tree => StmtFrom stream tree
  | .block tree => BlockFrom stream tree

/-- The span of a node is that of the tokens it is derived from, some of the source. The nodes
below lie within it, each behind the one before. -/
structure Exact (stream : TokenStream) (node : Node) : Prop where
  derived : ∃ first last, node.From stream first last ∧ node.span = stream.between first last
  nonempty : node.span.start < node.span.stop
  within : ∀ child ∈ node.children,
    node.span.start ≤ child.span.start ∧ child.span.stop ≤ node.span.stop
  ordered : node.children.Pairwise fun a b => a.span.stop ≤ b.span.start

end Node

/-- The nodes are derived from tokens from the one place up to the other, each behind the one
before. -/
def Laid (stream : TokenStream) : List Node → Nat → Nat → Prop
  | [], first, stop => first ≤ stop
  | node :: later, first, stop => ∃ start last, first ≤ start ∧ last < stop ∧
    node.From stream start last ∧ Laid stream later (last + 1) stop

variable {stream : TokenStream} {expr : Expr} {stmt : Stmt} {block : Block} {first mid last : Nat}

namespace Laid

variable {nodes more : List Node} {start stop : Nat}

theorem mono (h : Laid stream nodes first mid) (hfirst : start ≤ first) (hlast : mid ≤ stop) :
    Laid stream nodes start stop := by
  induction nodes generalizing start first with
  | nil => exact Nat.le_trans hfirst (Nat.le_trans h hlast)
  | cons node later ih =>
    obtain ⟨place, last, hplace, hlt, hat, hlater⟩ := h
    exact ⟨place, last, Nat.le_trans hfirst hplace, Nat.lt_of_lt_of_le hlt hlast, hat,
      ih hlater (Nat.le_refl _)⟩

theorem append (h : Laid stream nodes first mid) (hmore : Laid stream more mid stop)
    (hle : mid ≤ stop) : Laid stream (nodes ++ more) first stop := by
  induction nodes generalizing first with
  | nil => exact hmore.mono h (Nat.le_refl _)
  | cons node later ih =>
    obtain ⟨place, last, hplace, hlt, hat, hlater⟩ := h
    exact ⟨place, last, hplace, Nat.lt_of_lt_of_le hlt hle, hat, ih hlater⟩

theorem one {node : Node} (h : node.From stream first last) (hstart : start ≤ first)
    (hlast : last < stop) : Laid stream [node] start stop :=
  ⟨first, last, hstart, hlast, h, hlast⟩

end Laid

/-! ### Where expressions start and end -/

theorem Grouped.first_le {part : Expr → Nat → Nat → Prop}
    (h : Grouped stream part expr first last) : first ≤ last := by
  induction h with
  | bare hle => exact hle
  | parens _ _ _ ih => exact Nat.le_succ_of_le (Nat.le_of_succ_le ih)

theorem Grouped.not_eof {part : Expr → Nat → Nat → Prop}
    (h : Grouped stream part expr first last) : ¬stream.Has first .eof := by
  cases h with
  | bare _ hne => exact hne
  | parens hopen =>
    intro heof
    cases hopen.symm.trans heof

theorem BareFrom.span_eq (h : BareFrom stream expr first last) :
    expr.span = stream.between first last := by
  cases h <;> rfl

theorem Grouped.span_eq (h : ExprFrom stream expr first last) :
    expr.span = stream.between first last := by
  cases h with
  | bare _ _ hbare => exact hbare.span_eq
  | parens => exact Expr.span_withSpan _ _

theorem BareFrom.named (h : BareFrom stream expr first last) (name : String) :
    BareFrom stream (expr.named name) first last := by
  cases expr with
  | function =>
    cases h with
    | function hword hopening hopen hnames hbody =>
      exact .function hword hopening hopen hnames hbody
  | _ => exact h

theorem Expr.named_withSpan (expr : Expr) (span : Span) (name : String) :
    (expr.withSpan span).named name = (expr.named name).withSpan span := by
  cases expr <;> rfl

theorem Grouped.named (h : ExprFrom stream expr first last) (name : String) :
    ExprFrom stream (expr.named name) first last := by
  induction h with
  | bare hle hne hbare => exact .bare hle hne (hbare.named name)
  | parens hopen _ hclose ih =>
    rw [Expr.named_withSpan]
    exact .parens hopen ih hclose

/-! ### Where the parts lie -/

section

variable {α : Type} {part : α → Nat → Nat → Prop} {nodes : α → List Node} {items : List α}
  {closing : Token.Kind}

theorem Separated.first_le (hpart : ∀ item first last, part item first last → first ≤ last)
    (h : Separated stream part items first last) : first ≤ last := by
  induction h with
  | one hitem => exact hpart _ _ _ hitem
  | @more items item first mid last _ _ hitem ih =>
    have hmid : mid + 2 ≤ last := hpart item (mid + 2) last hitem
    omega

theorem Closed.first_le (hpart : ∀ item first last, part item first last → first ≤ last)
    (h : Closed stream part closing items first last) : first ≤ last := by
  cases h with
  | none => exact Nat.le_refl _
  | some hitems _ => exact Nat.le_succ_of_le (hitems.first_le hpart)

/-- Parts with commas between lie one behind the other if each of them lies where it should. -/
theorem Separated.laid (hle : ∀ item first last, part item first last → first ≤ last)
    (hpart : ∀ item first last, part item first last → Laid stream (nodes item) first (last + 1))
    (h : Separated stream part items first last) :
    Laid stream (items.flatMap nodes) first (last + 1) := by
  induction h with
  | @one item first last hitem =>
    rw [List.flatMap_singleton]
    exact hpart item first last hitem
  | @more items item first mid last _ _ hitem ih =>
    have hmid : mid + 2 ≤ last := hle item (mid + 2) last hitem
    rw [List.flatMap_append, List.flatMap_singleton]
    refine ih.append ?_ (by omega)
    exact (hpart item (mid + 2) last hitem).mono (Nat.le_succ _) (Nat.le_refl _)

theorem Closed.laid (hle : ∀ item first last, part item first last → first ≤ last)
    (hpart : ∀ item first last, part item first last → Laid stream (nodes item) first (last + 1))
    (h : Closed stream part closing items first last) :
    Laid stream (items.flatMap nodes) first last := by
  cases h with
  | none => exact Nat.le_refl _
  | some hitems _ => exact hitems.laid hle hpart

end

theorem NameFrom.first_le {name : String} (h : NameFrom stream name first last) : first ≤ last := by
  cases h with
  | mk => exact Nat.le_refl _

theorem Paired.first_le {entry : Expr × Expr}
    (h : Paired stream (ExprFrom stream) entry first last) : first ≤ last := by
  cases h with
  | mk hkey _ hvalue =>
    have hfirst := hkey.first_le
    have hmid := hvalue.first_le
    omega

theorem Paired.laid {entry : Expr × Expr} (h : Paired stream (ExprFrom stream) entry first last) :
    Laid stream [.expr entry.1, .expr entry.2] first (last + 1) := by
  cases h with
  | @mk key value _ mid _ hkey _ hvalue =>
    have hmid := hvalue.first_le
    exact ⟨first, mid, Nat.le_refl _, by omega, hkey, .one hvalue (by omega) (Nat.lt_succ_self _)⟩

theorem Closed.laid_exprs {items : List Expr} {closing : Token.Kind}
    (h : Closed stream (ExprFrom stream) closing items first last) :
    Laid stream (items.map .expr) first last := by
  rw [List.map_eq_flatMap]
  exact h.laid (fun _ _ _ hitem => hitem.first_le)
    fun _ _ _ hitem => .one hitem (Nat.le_refl _) (Nat.lt_succ_self _)

theorem StmtFrom.first_le (h : StmtFrom stream stmt first last) : first ≤ last := by
  cases h with
  | bind _ _ _ hvalue => exact Nat.le_of_add_right_le hvalue.first_le
  | ret _ hvalue => exact Nat.le_of_succ_le hvalue.first_le
  | retNull => exact Nat.le_refl _
  | expr hvalue => exact hvalue.first_le

theorem Sequence.laid {statements : List Stmt}
    (h : Sequence stream (StmtFrom stream) statements first last) :
    first ≤ last ∧ Laid stream (statements.map .stmt) first last := by
  induction h with
  | nil => exact ⟨Nat.le_refl _, Nat.le_refl _⟩
  | semicolon _ _ ih =>
    exact ⟨Nat.le_succ_of_le ih.1, ih.2.mono (Nat.le_refl _) (Nat.le_succ _)⟩
  | @more items item first mid last _ hitem ih =>
    have hmid : mid ≤ last := hitem.first_le
    rw [List.map_append]
    refine ⟨by omega, ih.2.append ?_ (by omega)⟩
    exact .one hitem (Nat.le_refl _) (Nat.lt_succ_self _)

theorem BlockFrom.first_lt (h : BlockFrom stream block first last) : first < last := by
  cases h with
  | mk _ hstatements _ => exact hstatements.laid.1

/-- The parts of an expression lie between its first and its last token. -/
theorem BareFrom.laid (h : BareFrom stream expr first last) :
    Laid stream expr.children first (last + 1) := by
  cases h with
  | ident => exact Nat.le_succ _
  | integer => exact Nat.le_succ _
  | boolean => exact Nat.le_succ _
  | string => exact Nat.le_succ _
  | unary _ hoperand => exact .one hoperand (Nat.le_succ _) (Nat.lt_succ_self _)
  | bump hoperand _ => exact .one hoperand (Nat.le_refl _) (by omega)
  | @binary _ _ _ _ mid _ hleft _ hright =>
    have hmid := hright.first_le
    exact ⟨first, mid, Nat.le_refl _, by omega, hleft, .one hright (by omega) (Nat.lt_succ_self _)⟩
  | @logical _ _ _ _ mid _ hleft _ hright =>
    have hmid := hright.first_le
    exact ⟨first, mid, Nat.le_refl _, by omega, hleft, .one hright (by omega) (Nat.lt_succ_self _)⟩
  | @ifThen _ _ _ mid _ _ _ hcondition _ hthen =>
    have hmid := hthen.first_lt
    exact ⟨first + 2, mid, by omega, by omega, hcondition,
      .one hthen (by omega) (Nat.lt_succ_self _)⟩
  | @ifElse _ _ _ _ mid stop _ _ _ hcondition _ hthen _ helse =>
    have hmid := hthen.first_lt
    have hstop := helse.first_lt
    exact ⟨first + 2, mid, by omega, by omega, hcondition, mid + 2, stop, by omega, by omega, hthen,
      .one helse (by omega) (Nat.lt_succ_self _)⟩
  | function _ hopening _ hnames hbody =>
    have hclose := hnames.first_le fun _ _ _ hname => hname.first_le
    exact .one hbody (by omega) (Nat.lt_succ_self _)
  | array _ helements =>
    exact helements.laid_exprs.mono (Nat.le_succ _) (Nat.le_succ _)
  | hash _ hentries =>
    have hlaid :=
      hentries.laid (fun _ _ _ hentry => hentry.first_le) fun _ _ _ hentry => hentry.laid
    exact hlaid.mono (Nat.le_succ _) (Nat.le_succ _)
  | @call _ _ _ mid _ hcallee _ harguments =>
    have hmid := harguments.first_le fun _ _ _ hitem => hitem.first_le
    exact ⟨first, mid, Nat.le_refl _, by omega, hcallee,
      harguments.laid_exprs.mono (Nat.le_succ _) (Nat.le_succ _)⟩
  | @index _ _ _ mid _ hcollection _ hkey _ =>
    have hmid := hkey.first_le
    exact ⟨first, mid, Nat.le_refl _, by omega, hcollection, .one hkey (by omega) (by omega)⟩

theorem Grouped.laid (h : ExprFrom stream expr first last) :
    Laid stream expr.children first (last + 1) := by
  induction h with
  | bare _ _ hbare => exact hbare.laid
  | parens _ _ _ ih =>
    rw [Expr.children_withSpan]
    exact ih.mono (Nat.le_succ _) (Nat.le_succ _)

theorem StmtFrom.laid (h : StmtFrom stream stmt first last) :
    Laid stream stmt.children first (last + 1) := by
  cases h with
  | bind _ _ _ hvalue =>
    exact .one (hvalue.named _) (Nat.le_add_right _ _) (Nat.lt_succ_self _)
  | ret _ hvalue => exact .one hvalue (Nat.le_succ _) (Nat.lt_succ_self _)
  | retNull => exact Nat.le_succ _
  | expr hvalue => exact .one hvalue (Nat.le_refl _) (Nat.lt_succ_self _)

theorem BlockFrom.laid (h : BlockFrom stream block first last) :
    Laid stream (block.statements.map .stmt) first (last + 1) := by
  cases h with
  | mk _ hstatements _ => exact hstatements.laid.2.mono (Nat.le_succ _) (Nat.le_succ _)

/-! ### Nested spans -/

theorem StmtFrom.not_eof (h : StmtFrom stream stmt first last) : ¬stream.Has first .eof := by
  intro heof
  cases h with
  | bind hword => cases hword.symm.trans heof
  | ret hword => cases hword.symm.trans heof
  | retNull hword => cases hword.symm.trans heof
  | expr hvalue => exact hvalue.not_eof heof

theorem BlockFrom.not_eof (h : BlockFrom stream block first last) : ¬stream.Has first .eof := by
  intro heof
  cases h with
  | mk hopen => cases hopen.symm.trans heof

namespace Node.From

variable {node : Node}

theorem first_le (h : node.From stream first last) : first ≤ last := by
  cases node with
  | expr => exact Grouped.first_le h
  | stmt => exact StmtFrom.first_le h
  | block => exact Nat.le_of_lt (BlockFrom.first_lt h)

theorem not_eof (h : node.From stream first last) : ¬stream.Has first .eof := by
  cases node with
  | expr => exact Grouped.not_eof h
  | stmt => exact StmtFrom.not_eof h
  | block => exact BlockFrom.not_eof h

theorem span_eq (h : node.From stream first last) : node.span = stream.between first last := by
  cases node with
  | expr => exact Grouped.span_eq h
  | stmt => cases h <;> rfl
  | block =>
    cases h
    rfl

theorem laid (h : node.From stream first last) : Laid stream node.children first (last + 1) := by
  cases node with
  | expr => exact Grouped.laid h
  | stmt => exact StmtFrom.laid h
  | block => exact BlockFrom.laid h

end Node.From

namespace Laid

variable {nodes : List Node} {stop : Nat}

theorem exists_from (h : Laid stream nodes first stop) {node : Node} (hm : node ∈ nodes) :
    ∃ start last, first ≤ start ∧ last < stop ∧ node.From stream start last := by
  induction nodes generalizing first with
  | nil => cases hm
  | cons head later ih =>
    obtain ⟨start, last, hstart, hlast, hat, hlater⟩ := h
    rcases List.mem_cons.mp hm with rfl | hm
    · exact ⟨start, last, hstart, hlast, hat⟩
    · obtain ⟨place, behind, hplace, hbehind, hnode⟩ := ih hlater hm
      have hle := hat.first_le
      exact ⟨place, behind, by omega, hbehind, hnode⟩

theorem pairwise (ha : stream.Ascending) (h : Laid stream nodes first stop) :
    nodes.Pairwise fun a b => a.span.stop ≤ b.span.start := by
  induction nodes generalizing first with
  | nil => exact .nil
  | cons head later ih =>
    obtain ⟨start, last, -, -, hat, hlater⟩ := h
    refine .cons (fun node hm => ?_) (ih hlater)
    obtain ⟨place, behind, hplace, -, hnode⟩ := hlater.exists_from hm
    rw [hat.span_eq, hnode.span_eq]
    exact ha.apart last place hplace

end Laid

/-- A node that is derived from tokens of a source is exact. -/
theorem Node.From.exact {node : Node} (ha : stream.Ascending) (h : node.From stream first last) :
    node.Exact stream where
  derived := ⟨first, last, h, h.span_eq⟩
  nonempty := by
    rw [h.span_eq]
    exact Nat.lt_of_lt_of_le (ha.nonempty first h.not_eof) (ha.stop_le h.first_le)
  within := by
    intro child hm
    obtain ⟨start, stop, hstart, hstop, hchild⟩ := h.laid.exists_from hm
    rw [h.span_eq, hchild.span_eq]
    exact ⟨ha.start_le hstart, ha.stop_le (Nat.le_of_lt_succ hstop)⟩
  ordered := h.laid.pairwise ha

/-- The nodes of a program: its statements, and those below a node of it. -/
inductive Program.Has (tree : Program) : Node → Prop where
  | statement {stmt : Stmt} : stmt ∈ tree.statements → Has tree (.stmt stmt)
  | child {parent node : Node} : Has tree parent → node ∈ parent.children → Has tree node

/-- The program is derived from all tokens up to the end. Its statements come one behind the
other, and all of its nodes are exact. -/
structure Program.Exact (stream : TokenStream) (tree : Program) : Prop where
  derived : ∃ last, Sequence stream (StmtFrom stream) tree.statements 0 last ∧ stream.Has last .eof
  ordered : tree.statements.Pairwise fun a b => a.span.stop ≤ b.span.start
  exact : ∀ node, tree.Has node → node.Exact stream

theorem Program.exact_of_sequence {tree : Program} (ha : stream.Ascending)
    (h : Sequence stream (StmtFrom stream) tree.statements 0 last) (hend : stream.Has last .eof) :
    tree.Exact stream where
  derived := ⟨last, h, hend⟩
  ordered := List.pairwise_map.mp (h.laid.2.pairwise ha)
  exact := by
    intro node hnode
    have hat : ∃ start stop, node.From stream start stop := by
      induction hnode with
      | statement hm =>
        obtain ⟨start, stop, -, -, hstmt⟩ := h.laid.2.exists_from (List.mem_map_of_mem hm)
        exact ⟨start, stop, hstmt⟩
      | child _ hm ih =>
        obtain ⟨start, stop, hparent⟩ := ih
        obtain ⟨place, behind, -, -, hchild⟩ := hparent.laid.exists_from hm
        exact ⟨place, behind, hchild⟩
    obtain ⟨start, stop, hat⟩ := hat
    exact hat.exact ha

end Simian
