import Simian.Proofs.Scanning
import Simian.Proofs.TreeSpelling
import Simian.Proofs.WordGrouping

/-!
# Reading what has been written

A program that is written as words, and these with spaces between them, is read again as
the same program up to spans. The lexer finds the words, and the parser finds the tree.
-/
namespace Simian

open Word

/-! ### The words of a tree are words -/

/-- The lexer reads each of the words. -/
def AllScan (words : List Word) : Prop := ∀ word ∈ words, word.Scans

section
variable {words more : List Word}

theorem AllScan.cons {word : Word} (h : word.Scans) (hw : AllScan words) :
    AllScan (word :: words) := List.forall_mem_cons.mpr ⟨h, hw⟩

theorem AllScan.append (h : AllScan words) (hm : AllScan more) : AllScan (words ++ more) :=
  List.forall_mem_append.mpr ⟨h, hm⟩

theorem AllScan.sign (h : AllScan words) {kind : Token.Kind} (hk : isFixed kind = true) :
    AllScan (Word.sign kind :: words) := h.cons (scans_sign hk)

theorem allScan_nil : AllScan [] := List.forall_mem_nil _

theorem AllScan.enclosed (h : AllScan words) {opening closing : Token.Kind}
    (ho : isFixed opening = true) (hc : isFixed closing = true) :
    AllScan (Word.enclosed opening closing words) := (h.append (allScan_nil.sign hc)).sign ho

theorem AllScan.ended (h : AllScan words) : AllScan (words ++ [Word.sign .semicolon]) :=
  h.append (allScan_nil.sign rfl)

theorem allScan_name {named : Option String} (h : ∀ text ∈ named, Token.isName text = true) :
    AllScan (named.toList.map Word.name) := by
  cases named with
  | none => exact allScan_nil
  | some text => exact allScan_nil.cons (scans_name (h text rfl))

theorem allScan_moreNames {texts : List String} (h : ∀ text ∈ texts, Token.isName text = true) :
    AllScan (moreNames texts) := by
  induction texts with
  | nil => exact allScan_nil
  | cons text rest ih =>
    have hrest := ih fun other ho => h other (List.mem_cons_of_mem _ ho)
    exact (hrest.cons (scans_name (h text List.mem_cons_self))).sign rfl

theorem allScan_names {texts : List String} (h : ∀ text ∈ texts, Token.isName text = true) :
    AllScan (names texts) := by
  cases texts with
  | nil => exact allScan_nil
  | cons text rest =>
    have hrest := allScan_moreNames fun other ho => h other (List.mem_cons_of_mem _ ho)
    exact hrest.cons (scans_name (h text List.mem_cons_self))

end

mutual

theorem Expr.Written.scans {least : Nat} {tree : Expr} {words : List Word}
    (h : tree.Written least words) : AllScan words :=
  match h with
  | .plain _ hplain => hplain.scans
  | .group hinner => hinner.scans.enclosed rfl rfl

theorem Expr.Plain.scans {tree : Expr} {words : List Word} (h : tree.Plain words) :
    AllScan words :=
  match h with
  | .ident hname => allScan_nil.cons (scans_name hname)
  | .integer _ => allScan_nil.cons (scans_number _)
  | .boolean => allScan_nil.sign (by split <;> rfl)
  | .string => allScan_nil.cons (scans_string _)
  | .unary hoperand => hoperand.scans.sign (UnaryOp.isFixed_kind _)
  | .binary hleft hright => hleft.scans.append (hright.scans.sign (BinaryOp.isFixed_kind _))
  | .logical hleft hright => hleft.scans.append (hright.scans.sign (LogicalOp.isFixed_kind _))
  | .bump hoperand => hoperand.scans.append (allScan_nil.sign (BumpOp.isFixed_kind _))
  | .ifThen hcondition hblock =>
    ((hcondition.scans.enclosed rfl rfl).append (hblock.scans.enclosed rfl rfl)).sign rfl
  | .ifElse hcondition hfirst hsecond =>
    ((hcondition.scans.enclosed rfl rfl).append ((hfirst.scans.enclosed rfl rfl).append
      ((hsecond.scans.enclosed rfl rfl).sign rfl))).sign rfl
  | .function hname hparameters _ hblock =>
    ((allScan_name hname).append (((allScan_names hparameters).enclosed rfl rfl).append
      (hblock.scans.enclosed rfl rfl))).sign rfl
  | .array hitems => hitems.scans.enclosed rfl rfl
  | .hash hentries => hentries.scans.enclosed rfl rfl
  | .call hcallee hitems => hcallee.scans.append (hitems.scans.enclosed rfl rfl)
  | .index hcollection hkey => hcollection.scans.append (hkey.scans.enclosed rfl rfl)

theorem ItemsWritten.scans {items : List Expr} {words : List Word} (h : ItemsWritten items words) :
    AllScan words :=
  match h with
  | .none => allScan_nil
  | .some hfirst hmore => hfirst.scans.append hmore.scans

theorem MoreItemsWritten.scans {items : List Expr} {words : List Word}
    (h : MoreItemsWritten items words) : AllScan words :=
  match h with
  | .nil => allScan_nil
  | .cons hitem hmore => (hitem.scans.append hmore.scans).sign rfl

theorem EntriesWritten.scans {entries : List (Expr × Expr)} {words : List Word}
    (h : EntriesWritten entries words) : AllScan words :=
  match h with
  | .none => allScan_nil
  | .some hkey hvalue hmore =>
    hkey.scans.append ((hvalue.scans.append hmore.scans).sign rfl)

theorem MoreEntriesWritten.scans {entries : List (Expr × Expr)} {words : List Word}
    (h : MoreEntriesWritten entries words) : AllScan words :=
  match h with
  | .nil => allScan_nil
  | .cons hkey hvalue hmore =>
    (hkey.scans.append ((hvalue.scans.append hmore.scans).sign rfl)).sign rfl

theorem Stmt.Written.scans {stmt : Stmt} {words : List Word} (h : stmt.Written words) :
    AllScan words :=
  match h with
  | .bind hname _ hvalue => ((hvalue.scans.ended.sign rfl).cons (scans_name hname)).sign rfl
  | .ret hvalue => hvalue.scans.ended.sign rfl
  | .retNull => (allScan_nil.sign rfl).sign rfl
  | .expr hvalue => hvalue.scans.ended

theorem StmtsWritten.scans {statements : List Stmt} {words : List Word}
    (h : StmtsWritten statements words) : AllScan words :=
  match h with
  | .nil => allScan_nil
  | .cons hstmt hmore => hstmt.scans.append hmore.scans

end

/-! ### Whole programs -/

section
variable {text : String} {words : List Word} {maxDepth : Nat} {journal : Journal}

/-- A parser starts at the first of the words. -/
theorem TokenStream.Spells.at_ofString (h : (ofString text).Spells words) :
    (Parser.ofString text maxDepth journal).At 0 maxDepth words := by
  -- before the first two tokens are drawn, an end mark stands in front of the words
  have hwords : (ofString text).endMark.word :: (ofString text).pending.map (·.token.word) =
      (.eof :: words) ++ List.replicate 0 .eof := by
    rw [h.endMark, h.words_eq, List.replicate_zero, List.append_nil]
  exact Parser.Faces.shift (Parser.At.faces (Parser.Faces.shift
    (⟨rfl, rfl, rfl, h.clean, h.endMark, 0, hwords⟩ :
      Parser.Faces _ 0 maxDepth (Word.eof :: words))))

theorem Nested.loops_statements (inner : Nested) : inner.Loops (Parser.statements inner) := by
  intro taken rounds parser hkind
  rw [List.mem_cons, List.mem_cons, List.mem_singleton, not_or, not_or] at hkind
  rw [Parser.statements,
    Attempt.bind_of_ok (show Parse.current parser = (.ok parser.current, parser) from rfl)]
  refine congrFun ?_ parser
  split
  next he => exact absurd he hkind.2.2
  next he => exact absurd he hkind.1
  next => rfl

theorem Parser.statements_stop {inner : Nested} {read : List Stmt} {rounds depth limit : Nat}
    {parser : Parser} (hat : parser.At depth limit []) :
    statements inner read rounds parser = (.ok read, parser) := by
  cases rounds with
  | zero => rfl
  | succ rounds =>
    have hkind : parser.current.kind = .eof := hat.kind
    rw [statements,
      Attempt.bind_of_ok (show Parse.current parser = (.ok parser.current, parser) from rfl), hkind]
    rfl

theorem Parser.At.length_le {parser : Parser} {depth limit : Nat}
    (h : parser.At depth limit words) : words.length ≤ parser.roundsLeft := by
  obtain ⟨count, hwords⟩ := h.faces.words_eq
  have hlength := congrArg List.length hwords
  rw [List.length_cons, List.length_map, List.length_append, List.length_tail] at hlength
  unfold roundsLeft
  omega

/-- What has been written is read again, if there are as many nesting levels as words. -/
theorem Program.parse_of_written {tree : Program} (hwritten : tree.Written words)
    (htext : Spaced words text.toList) (hdepth : words.length ≤ maxDepth) :
    ∃ read, (parse text maxDepth journal).1 = .ok read ∧ read.bare = tree.bare := by
  have hat : (Parser.ofString text maxDepth journal).At 0 maxDepth words :=
    (TokenStream.spells_ofString htext (StmtsWritten.scans hwritten)).at_ofString
  unfold parse
  generalize Parser.ofString text maxDepth journal = parser at hat
  have hlevels : parser.levelsLeft = maxDepth := by
    unfold Parser.levelsLeft
    rw [hat.faces.limit_eq, hat.faces.depth_eq, Nat.sub_zero]
  have hroom : Room parser.roundsLeft parser.levelsLeft 0 maxDepth words :=
    ⟨by rwa [hlevels], Nat.le_of_eq (by rw [hlevels, Nat.zero_add]), hat.length_le⟩
  have hread := StmtsWritten.read hwritten
  obtain ⟨read, fewer, after, hrun, hsame, hend⟩ := hread.reads _ _ _ _ [] hroom
    (Parser.statements parser.nested) (Nested.loops_statements _) [] parser.roundsLeft parser
    (Nat.le_trans hread.length_le hat.length_le) (by rwa [List.append_nil])
  have hstart : Parse.raiseFault parser = (.ok (), parser) := by
    unfold Parse.raiseFault
    rw [hat.faces.fault]
  have hstatements : Parser.statements parser.nested [] parser.roundsLeft parser =
      (.ok read, after) := hrun.trans (Parser.statements_stop hend)
  refine ⟨⟨read.reverse⟩, ?_, ?_⟩
  · rw [Parser.parseProgram, Attempt.bind_of_ok hstart,
      Attempt.bind_of_ok (show Parse.get parser = (.ok parser, parser) from rfl)]
    exact congrArg Prod.fst (Attempt.bind_of_ok hstatements)
  · have hreverse := congrArg List.reverse hsame
    simp only [bareStmts_eq_map, ← List.map_reverse, List.reverse_append, List.reverse_reverse,
      List.reverse_nil, List.nil_append] at hreverse
    rw [Program.bare, bareStmts_eq_map, hreverse, Program.bare, bareStmts_eq_map]

/-- Operators in front of, between and behind operands, a named function and a quotation. -/
theorem Program.parse_of_written_operators :
    let tree : Program := ⟨[
      .bind "f" (.function (some "f") ["a", "b"] (.mk [
        .ret (.bump .increment (.unary .negate (.ident "a" .zero) .zero) .zero) .zero] .zero)
        .zero) .zero,
      .expr (.binary .sub (.index (.call (.ident "f" .zero) [.string "say \"hi\"" .zero,
        .integer 7 .zero] .zero) (.integer 0 .zero) .zero)
        (.binary .sub (.integer 2 .zero) (.integer 1 .zero) .zero) .zero) .zero]⟩
    let text := "let f = fn f ( a , b ) \x7b return ( - a ) ++ ; \x7d ;" ++
      " f ( \"say \\\"hi\\\"\" , 7 ) [ 0 ] - ( 2 - 1 ) ;"
    tree.Written tree.words ∧ Spaced tree.words text.toList ∧ tree.words.length ≤ 40 ∧
      ∃ read, (parse text 40 (.opened .off)).1 = .ok read ∧ read.bare = tree.bare := by
  intro tree text
  have hwritten : tree.Written tree.words := written_words (by decide)
  have htext : Spaced tree.words text.toList := by
    have hline : text.toList = line tree.words := by decide +kernel
    rw [hline]
    exact spaced_line tree.words
  have hdepth : tree.words.length ≤ 40 := by decide
  exact ⟨hwritten, htext, hdepth, parse_of_written hwritten htext hdepth⟩

end

end Simian
