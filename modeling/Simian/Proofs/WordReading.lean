import Simian.Proofs.WrittenTrees
import Simian.Tree.Parser

/-!
# Reading words

What the moves of the parser do where certain words are to come. A rule reads some words,
with the first of them as the current token, and stops on the last one, in front of the
rest (`Parse.Reads`).
-/
namespace Simian

open Parse Word

/-! ### The words to come -/

namespace Parser

/-- The words come after the current token, and then nothing but the end. The text holds no
fault. -/
structure Faces (parser : Parser) (depth limit : Nat) (words : List Word) : Prop where
  depth_eq : parser.depth = depth
  limit_eq : parser.maxDepth = limit
  fault : parser.fault = none
  clean : ∀ scanned ∈ parser.stream.pending, scanned.fault = none
  endMark : parser.stream.endMark.word = .eof
  words_eq : ∃ count, parser.peek.word :: parser.stream.pending.map (·.token.word) =
    words ++ List.replicate count .eof

/-- The current token is the first of the words, or the end if there are none. -/
structure At (parser : Parser) (depth limit : Nat) (words : List Word) : Prop where
  current : parser.current.word = words.headD .eof
  faces : parser.Faces depth limit words.tail

variable {parser : Parser} {depth limit : Nat} {words : List Word}

theorem head_padded {first : Word} {rest words : List Word} {count : Nat}
    (h : first :: rest = words ++ List.replicate count .eof) :
    first = words.headD .eof ∧ ∃ fewer, rest = words.tail ++ List.replicate fewer .eof := by
  cases words with
  | cons word more =>
    obtain ⟨rfl, rfl⟩ := List.cons.inj h
    exact ⟨rfl, count, rfl⟩
  | nil =>
    cases count with
    | zero => cases h
    | succ fewer =>
      obtain ⟨rfl, rfl⟩ := List.cons.inj h
      exact ⟨rfl, fewer, rfl⟩

theorem Faces.peek (h : parser.Faces depth limit words) :
    parser.peek.word = words.headD .eof := by
  obtain ⟨count, hwords⟩ := h.words_eq
  exact (head_padded hwords).1

theorem At.kind (h : parser.At depth limit words) :
    parser.current.kind = (words.headD .eof).kind :=
  congrArg Word.kind h.current

theorem At.literal (h : parser.At depth limit words) :
    parser.current.literal = (words.headD .eof).literal :=
  congrArg Word.literal h.current

/-- The window moves on by one word. -/
theorem Faces.shift (h : parser.Faces depth limit words) : parser.shift.At depth limit words := by
  have hpeek := h.peek
  obtain ⟨count, hwords⟩ := h.words_eq
  obtain ⟨-, fewer, hrest⟩ := head_padded hwords
  obtain ⟨⟨pending, endMark⟩, current, peek, fault, parserDepth, maxDepth, indent, drawn,
    journal⟩ := parser
  cases pending with
  | nil =>
    refine ⟨hpeek, h.depth_eq, h.limit_eq, h.fault, h.clean, h.endMark, fewer + 1, ?_⟩
    rw [List.replicate_succ', ← List.append_assoc, ← hrest]
    exact congrArg (· :: []) h.endMark
  | cons scanned rest =>
    have hfault := h.clean scanned List.mem_cons_self
    have hclean : ∀ other ∈ rest, other.fault = none := fun other hother =>
      h.clean other (List.mem_cons_of_mem _ hother)
    unfold shift draw TokenStream.next
    dsimp only
    rw [hfault]
    exact ⟨hpeek, h.depth_eq, h.limit_eq, h.fault, hclean, h.endMark, fewer, hrest⟩

end Parser

/-! ### Chains of moves -/

namespace Parse

variable {α β : Type} {step : Parse α} {parser : Parser} {post : α → Parser → Prop}

/-- The rule gives a value and a parser that are as described. -/
def Gets (step : Parse α) (parser : Parser) (post : α → Parser → Prop) : Prop :=
  ∃ value after, step parser = (.ok value, after) ∧ post value after

theorem gets_pure {value : α} (h : post value parser) : Gets (pure value) parser post :=
  ⟨value, parser, rfl, h⟩

theorem Gets.bind {next : α → Parse β} {later : β → Parser → Prop} (h : step.Gets parser post)
    (hnext : ∀ value after, post value after → (next value).Gets after later) :
    Gets (step >>= next) parser later := by
  obtain ⟨value, after, hstep, hpost⟩ := h
  obtain ⟨result, last, hlast, hlater⟩ := hnext value after hpost
  exact ⟨result, last, (Attempt.bind_of_ok hstep).trans hlast, hlater⟩

theorem gets_pos {c : Bool} {other : Parse α} (hc : c = true) (h : step.Gets parser post) :
    Gets (if c then step else other) parser post := by
  rwa [if_pos hc]

theorem gets_neg {c : Bool} {other : Parse α} (hc : c = false) (h : step.Gets parser post) :
    Gets (if c then other else step) parser post := by
  rwa [if_neg (Bool.eq_false_iff.mp hc)]

/-- Looking at the current token moves nothing. -/
theorem gets_current {next : Token → Parse α} (h : (next parser.current).Gets parser post) :
    Gets (current >>= next) parser post := h

theorem gets_currentIs {kind : Token.Kind} {next : Bool → Parse α}
    (h : (next (parser.current.kind == kind)).Gets parser post) :
    Gets (currentIs kind >>= next) parser post := h

theorem gets_get {next : Parser → Parse α} (h : (next parser).Gets parser post) :
    Gets (get >>= next) parser post := h

/-- The rule reads the first of the words, up to the rest of them, as a value with the property. -/
def Reads (step : Parse α) (depth limit : Nat) (words rest : List Word) (holds : α → Prop) : Prop :=
  ∀ parser : Parser, parser.At depth limit words →
    step.Gets parser fun value after => holds value ∧ after.Faces depth limit rest

variable {depth limit : Nat} {words rest : List Word} {holds : α → Prop}

theorem Reads.rule (h : step.Reads depth limit words rest holds) (name : String) :
    (rule name step).Reads depth limit words rest holds := by
  intro parser hat
  cases htrace : parser.journal.admits .trace with
  | false =>
    obtain ⟨value, after, hstep, hread⟩ := h parser hat
    refine ⟨value, after, ?_, hread⟩
    unfold Parse.rule
    rwa [if_neg (by rw [htrace]; exact Bool.false_ne_true)]
  | true =>
    have hentered : Parser.At { parser.trace (name ++ " (") with indent := parser.indent + 1 }
        depth limit words :=
      ⟨hat.current, { hat.faces with }⟩
    obtain ⟨value, after, hstep, hvalue, hfaces⟩ := h _ hentered
    refine ⟨value, { after with indent := after.indent - 1 }.trace ")", ?_, hvalue,
      { hfaces with }⟩
    unfold Parse.rule
    rw [if_pos htrace]
    exact congrArg (fun out : Except ParseError α × Parser =>
      (out.1, { out.2 with indent := out.2.indent - 1 }.trace ")")) hstep

theorem Reads.nested (h : step.Reads (depth + 1) limit words rest holds) (hd : depth < limit) :
    (nested step).Reads depth limit words rest holds := by
  intro parser hat
  have hfaces := hat.faces
  have hdeeper : Parser.At { parser with depth := parser.depth + 1 } (depth + 1) limit words :=
    ⟨hat.current, { hfaces with depth_eq := congrArg (· + 1) hfaces.depth_eq }⟩
  obtain ⟨value, after, hstep, hvalue, hafter⟩ := h _ hdeeper
  refine ⟨value, { after with depth := after.depth - 1 }, ?_, hvalue, { hafter with
    depth_eq := by rw [hafter.depth_eq, Nat.add_sub_cancel] }⟩
  unfold Parse.nested
  rw [if_neg (by rw [hfaces.limit_eq, hfaces.depth_eq]; omega), hstep]

end Parse

namespace Parser.Faces

variable {α : Type} {parser : Parser} {depth limit : Nat} {words : List Word}
  {post : α → Parser → Prop}

theorem advance (h : parser.Faces depth limit words) :
    Parse.advance.Gets parser fun _ after => after.At depth limit words := by
  have hat := h.shift
  refine ⟨(), parser.shift, ?_, hat⟩
  unfold Parse.advance raiseFault
  rw [hat.faces.fault]

/-- The token to come is of the kind that is insisted on. -/
theorem expectPeek (h : parser.Faces depth limit words) {kind : Token.Kind}
    (hk : (words.headD .eof).kind = kind) :
    (Parse.expectPeek kind).Gets parser fun _ after => after.At depth limit words := by
  have hpeek : parser.peek.kind = kind := (congrArg Word.kind h.peek).trans hk
  unfold Gets Parse.expectPeek
  rw [if_pos (by rw [hpeek, beq_self_eq_true])]
  exact h.advance

/-- Looking at the token to come moves nothing. -/
theorem peekIs (h : parser.Faces depth limit words) {kind : Token.Kind} {next : Bool → Parse α}
    (hnext : (next ((words.headD .eof).kind == kind)).Gets parser post) :
    Gets (Parse.peekIs kind >>= next) parser post := by
  have hpeek : parser.peek.kind = (words.headD .eof).kind := congrArg Word.kind h.peek
  rw [← hpeek] at hnext
  exact hnext

end Parser.Faces

end Simian
