import Simian.Value.Builtin

/-!
# Writing behind a text

Every printer appends to the text that it is given and never looks at it, so what it adds
does not depend on what is there. The lemmas follow the printers one by one, up to what
`puts` writes to a sink.
-/
namespace Simian

theorem push_append (text out : String) (c : Char) : (text ++ out).push c = text ++ out.push c := by
  rw [String.push_eq_append, String.push_eq_append, String.append_assoc]

theorem writeNames_append (text out : String) (names : List String) :
    writeNames (text ++ out) names = text ++ writeNames out names := by
  induction names generalizing out with
  | nil => rfl
  | cons name rest ih =>
    cases rest with
    | nil => exact String.append_assoc ..
    | cons next rest =>
      have hcons : ∀ out, writeNames out (name :: next :: rest) =
          writeNames (out ++ name ++ ", ") (next :: rest) := fun _ => rfl
      rw [hcons, hcons, String.append_assoc, String.append_assoc, ih, String.append_assoc]

mutual

theorem Expr.write_append (text out : String) (tree : Expr) :
    tree.write (text ++ out) = text ++ tree.write out := by
  match tree with
  | .ident name _ => simp only [Expr.write, String.append_assoc]
  | .integer value _ => simp only [Expr.write, String.append_assoc]
  | .boolean value _ => simp only [Expr.write, String.append_assoc]
  | .string value _ => simp only [Expr.write, String.append_assoc]
  | .unary op operand _ =>
    simp only [Expr.write, String.append_assoc, push_append, operand.write_append]
  | .binary op left right _ =>
    simp only [Expr.write, String.append_assoc, push_append, left.write_append, right.write_append]
  | .logical op left right _ =>
    simp only [Expr.write, String.append_assoc, push_append, left.write_append, right.write_append]
  | .bump op operand _ =>
    simp only [Expr.write, String.append_assoc, push_append, operand.write_append]
  | .ifThen condition thenBlock _ =>
    simp only [Expr.write, String.append_assoc, condition.write_append, thenBlock.write_append]
  | .ifElse condition thenBlock elseBlock _ =>
    simp only [Expr.write, String.append_assoc, condition.write_append, thenBlock.write_append,
      elseBlock.write_append]
  | .function name parameters body _ =>
    cases name <;>
      simp only [Expr.write, String.append_assoc, writeNames_append, body.write_append]
  | .array elements _ =>
    simp only [Expr.write, push_append, Expr.writeAll_append]
  | .hash entries _ =>
    simp only [Expr.write, push_append, Expr.writeEntries_append]
  | .call callee arguments _ =>
    simp only [Expr.write, push_append, callee.write_append, Expr.writeAll_append]
  | .index collection key _ =>
    simp only [Expr.write, push_append, String.append_assoc, collection.write_append,
      key.write_append]

theorem Expr.writeAll_append (text out : String) (items : List Expr) :
    Expr.writeAll (text ++ out) items = text ++ Expr.writeAll out items := by
  match items with
  | [] => rfl
  | [item] => exact item.write_append text out
  | item :: next :: rest =>
    simp only [Expr.writeAll, String.append_assoc, item.write_append,
      Expr.writeAll_append _ _ (next :: rest)]

theorem Expr.writeEntries_append (text out : String) (entries : List (Expr × Expr)) :
    Expr.writeEntries (text ++ out) entries = text ++ Expr.writeEntries out entries := by
  match entries with
  | [] => rfl
  | [(key, value)] =>
    simp only [Expr.writeEntries, String.append_assoc, key.write_append, value.write_append]
  | (key, value) :: next :: rest =>
    simp only [Expr.writeEntries, String.append_assoc, key.write_append, value.write_append,
      Expr.writeEntries_append _ _ (next :: rest)]

theorem Stmt.write_append (text out : String) (tree : Stmt) :
    tree.write (text ++ out) = text ++ tree.write out := by
  match tree with
  | .bind name value _ =>
    simp only [Stmt.write, String.append_assoc, push_append, value.write_append]
  | .ret value _ => simp only [Stmt.write, String.append_assoc, push_append, value.write_append]
  | .retNull _ => simp only [Stmt.write, String.append_assoc]
  | .expr value _ => exact value.write_append text out

theorem Stmt.writeAll_append (text out : String) (trees : List Stmt) :
    Stmt.writeAll (text ++ out) trees = text ++ Stmt.writeAll out trees := by
  match trees with
  | [] => rfl
  | tree :: rest =>
    simp only [Stmt.writeAll, push_append, tree.write_append, Stmt.writeAll_append _ _ rest]

theorem Block.write_append (text out : String) (tree : Block) :
    tree.write (text ++ out) = text ++ tree.write out := by
  match tree with
  | .mk statements _ =>
    simp only [Block.write, push_append, String.append_assoc, Stmt.writeAll_append]

end

theorem Key.write_append (text out : String) (key : Key) :
    key.write (text ++ out) = text ++ key.write out := by
  cases key <;> exact String.append_assoc ..

namespace Value

mutual

theorem write_append (nested : Bool) (text out : String) (value : Value) :
    value.write nested (text ++ out) = text ++ value.write nested out := by
  match value with
  | .null | .int _ | .bool _ | .str _ | .builtin _ => simp only [write, String.append_assoc]
  | .compiled .. | .closure .. => simp only [write, String.append_assoc]
  | .array items => simp only [write, push_append, writeItems_append]
  | .hash entries => simp only [write, push_append, writeEntries_append]
  | .function tree =>
    simp only [write, String.append_assoc, writeNames_append, Block.write_append]

theorem writeItems_append (text out : String) (items : List Value) :
    writeItems (text ++ out) items = text ++ writeItems out items := by
  match items with
  | [] => rfl
  | [item] => exact item.write_append true text out
  | item :: next :: rest =>
    simp only [writeItems, String.append_assoc, item.write_append,
      writeItems_append _ _ (next :: rest)]

theorem writeEntries_append (text out : String) (entries : List (Key × Value)) :
    writeEntries (text ++ out) entries = text ++ writeEntries out entries := by
  match entries with
  | [] => rfl
  | [(key, value)] =>
    simp only [writeEntries, String.append_assoc, key.write_append, value.write_append]
  | (key, value) :: next :: rest =>
    simp only [writeEntries, String.append_assoc, key.write_append, value.write_append,
      writeEntries_append _ _ (next :: rest)]

end

end Value

/-! ### Sinks -/

/-- The sink with this text written to it before all else. -/
def Sink.behind (text : String) (sink : Sink) : Sink := { sink with written := text ++ sink.written }

theorem Sink.putLines_behind (text : String) (sink : Sink) (values : List Value) :
    (sink.behind text).putLines values =
      ((sink.putLines values).1, (sink.putLines values).2.behind text) := by
  induction values generalizing sink with
  | nil => rfl
  | cons value rest ih =>
    rw [putLines, putLines, show (sink.behind text).fault = sink.fault from rfl]
    cases sink.fault with
    | some reason => rfl
    | none =>
      dsimp only
      rw [← ih]
      congr 1
      simp only [behind, Value.write_append, push_append]

/-- A call of a built-in function does not depend on what the sink has. -/
theorem Builtin.call_behind (builtin : Builtin) (arguments : List Value) (text : String)
    (sink : Sink) : builtin.call arguments (sink.behind text) =
      ((builtin.call arguments sink).1, (builtin.call arguments sink).2.behind text) := by
  cases builtin with
  | puts =>
    unfold Builtin.call
    dsimp only
    rw [Sink.putLines_behind]
    obtain ⟨result, after⟩ := sink.putLines arguments
    cases result <;> rfl
  | _ => rfl

end Simian
