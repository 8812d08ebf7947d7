import Simian.Proofs.LosslessReading
import Simian.Proofs.TreeEquality

/-!
# Sources that are accepted

A source that is parsed holds nothing but the words of its tree. The loops over statements take
whole statements and semicolons up to the word that ends them, the rules of a level are made
from those of the level further in, and the loop of the program takes all tokens up to the end
mark, none of them at fault.
-/
namespace Simian

open Parse Word

theorem Stmt.Closes.rendered {stmt : Stmt} {rest : List Stmt} {words more : List Word}
    (h : stmt.Closes words) (hrest : StmtsRendered rest more) :
    StmtsRendered (stmt :: rest) (words ++ more) := by
  obtain ⟨own, hown, rfl | rfl⟩ := h
  · exact .cons hown hrest
  · rw [List.append_assoc, List.singleton_append]
    exact .cons hown (.semicolon hrest)

namespace Nested

variable {inner : Nested} {budget rounds : Nat} {words : Stream' Word}

/-- A loop over statements that in each round stops at a word of certain kinds, the end among
them, or skips a semicolon, or reads a statement. -/
structure Gathers (inner : Nested) (stops : Token.Kind → Prop)
    (loop : List Stmt → Nat → Parse (List Stmt)) : Prop where
  ends : stops .eof
  done : ∀ read, loop read 0 = pure read
  round : ∀ {budget words read rounds post},
    (stops words.head.kind → post read [] words) →
    (words.head = sign .semicolon →
      (advance >>= fun _ => loop read rounds).Takes budget words post) →
    (inner.statement >>= fun stmt => advance >>= fun _ => loop (stmt :: read) rounds).Takes
      budget words post →
    (loop read (rounds + 1)).Takes budget words post

theorem gathers_blockStatements (inner : Nested) : inner.Gathers
    (fun kind => kind = .rightBrace ∨ kind = .eof) inner.blockStatements := by
  constructor
  · exact .inr rfl
  · exact fun _ => rfl
  · intro budget words read rounds post hstop hskip hread
    refine takes_current fun token htoken hspelt => ?_
    have hkind : words.head.kind = token.kind := congrArg Word.kind htoken.symm
    split
    next hbrace => exact takes_pure (hstop (.inl (hkind.trans hbrace)))
    next hend => exact takes_pure (hstop (.inr (hkind.trans hend)))
    next hsemicolon => exact hskip (hspelt.eq_sign (hkind.trans hsemicolon) rfl)
    next => exact hread

theorem gathers_statements (inner : Nested) : inner.Gathers (· = .eof)
    (Parser.statements inner) := by
  constructor
  · rfl
  · exact fun _ => rfl
  · intro budget words read rounds post hstop hskip hread
    refine takes_current fun token htoken hspelt => ?_
    have hkind : words.head.kind = token.kind := congrArg Word.kind htoken.symm
    split
    next hend => exact takes_pure (hstop (hkind.trans hend))
    next hsemicolon => exact hskip (hspelt.eq_sign (hkind.trans hsemicolon) rfl)
    next => exact hread

/-- The loop passes whole statements and semicolons, up to a word at which it stops. -/
theorem Gathers.takes {stops : Token.Kind → Prop} {loop : List Stmt → Nat → Parse (List Stmt)}
    (hloop : inner.Gathers stops loop) (h : inner.Lossless budget) {read : List Stmt}
    (hrounds : ∀ place, rounds ≤ place → (words.get place).kind = .eof) :
    (loop read rounds).Takes budget words fun result passed rest =>
      ∃ later, result = later.reverse ++ read ∧ StmtsRendered later passed ∧
        stops rest.head.kind := by
  induction rounds generalizing words read with
  | zero =>
    rw [hloop.done]
    have hend : words.head.kind = .eof := hrounds 0 (Nat.le_refl _)
    exact takes_pure ⟨[], rfl, .nil, hend ▸ hloop.ends⟩
  | succ rounds ih =>
    have hlater (passed : List Word) (rest : Stream' Word) (hwords : words = passed ++ₛ rest)
        (place : Nat) (hplace : rounds ≤ place) : (rest.tail.get place).kind = .eof := by
      rw [Stream'.get_tail, ← Stream'.get_append_right _ passed rest, ← hwords]
      exact hrounds _ (by omega)
    refine hloop.round (fun hstop => ⟨[], rfl, .nil, hstop⟩) (fun hsemicolon => ?_) ?_
    · refine takes_advance fun _ => ?_
      refine (ih (hlater [] words rfl)).mono fun result passed rest hpost => ?_
      obtain ⟨later, hresult, hlater, hend⟩ := hpost
      rw [hsemicolon]
      exact ⟨later, hresult, .semicolon hlater, hend⟩
    · refine h.statement.tracked.bind fun stmt passed rest hpost => takes_advance fun _ => ?_
      obtain ⟨hwords, hstmt⟩ := hpost
      refine (ih (hlater passed rest hwords)).mono fun result more last hmore => ?_
      obtain ⟨later, rfl, hrendered, hend⟩ := hmore
      refine ⟨stmt :: later, ?_, ?_, hend⟩
      · rw [List.reverse_cons, List.append_assoc, List.singleton_append]
      · rw [List.append_cons]
        exact hstmt.rendered hrendered

theorem Lossless.blockRule (h : inner.Lossless budget) :
    (inner.blockRule budget).Takes budget words fun block passed rest =>
      block.Rendered (passed ++ [rest.head]) := by
  refine takes_current fun start _ _ => takes_expectCurrent fun hopen hopens => ?_
  refine takes_of_sight fun hsight => takes_advance fun _ => ?_
  have hrounds : ∀ place, budget ≤ place → (words.tail.get place).kind = .eof :=
    fun place hplace => hsight.ends _ (Nat.le_succ_of_le hplace)
  refine ((gathers_blockStatements inner).takes h hrounds).bind fun read passed rest hpost => ?_
  obtain ⟨later, rfl, hlater, hend⟩ := hpost
  refine takes_currentIs (takes_ite (fun _ => takes_failAtCurrent _) fun hne => ?_)
  refine takes_current fun token htoken hspelt => takes_pure ?_
  have hclose : rest.head = sign .rightBrace :=
    hspelt.eq_sign (hend.resolve_right (beq_eq_false_iff_ne.mp hne)) rfl
  rw [List.append_nil, List.append_nil, List.reverse_reverse, hclose, hopens.eq_sign hopen rfl]
  exact .mk hlater

/-- The rules with some levels left are made from those with one level less. -/
theorem lossless_at (budget levels : Nat) :
    Lossless ⟨expressionAt budget levels, blockAt budget levels⟩ budget := by
  induction levels with
  | zero =>
    constructor
    · intro precedence words _ parser value after _ h
      cases h
    · intro words _ parser value after _ h
      cases h
  | succ levels ih =>
    constructor
    · exact fun precedence words => ((ih.expressionRule precedence).rule _).nested
    · exact fun words => (ih.blockRule.rule _).nested

end Nested

/-! ### Programs -/

/-- What stands in front of the end mark is the same in two readings of the same words. -/
theorem Word.Endless.unique {words more : List Word} {rest last : Stream' Word}
    (h : Endless words) (hmore : Endless more) (hrest : rest.head.kind = .eof)
    (hlast : last.head.kind = .eof) (he : words ++ₛ rest = more ++ₛ last) :
    words = more ∧ rest = last := by
  induction words generalizing more with
  | nil =>
    cases more with
    | nil => exact ⟨rfl, he⟩
    | cons word more =>
      have hword : rest.head = word := congrArg Stream'.head he
      exact absurd (hword ▸ hrest) (hmore word List.mem_cons_self)
  | cons word words ih =>
    cases more with
    | nil =>
      have hword : word = last.head := congrArg Stream'.head he
      exact absurd (hword ▸ hlast) (h word List.mem_cons_self)
    | cons other more =>
      have hword : word = other := congrArg Stream'.head he
      obtain ⟨rfl, hsame⟩ := ih (fun later hl => h later (List.mem_cons_of_mem _ hl))
        (fun later hl => hmore later (List.mem_cons_of_mem _ hl)) (congrArg Stream'.tail he)
      rw [hword]
      exact ⟨rfl, hsame⟩

namespace TokenStream

/-- The words of the tokens to come, without the end mark. -/
def words (stream : TokenStream) : List Word := stream.pending.map (·.token.word)

variable {stream : TokenStream}

theorem Regular.endless (h : stream.Regular) : Endless stream.words := by
  intro word hword
  obtain ⟨scanned, hs, rfl⟩ := List.mem_map.mp hword
  exact (h.proper scanned hs).2

/-- A parser on a stream has the words of the stream in sight, and then the end mark. -/
theorem words_ofStream (stream : TokenStream) (maxDepth : Nat) (journal : Journal) :
    (Parser.ofStream stream maxDepth journal).words =
      stream.words ++ₛ Stream'.const stream.endMark.word := by
  unfold Parser.ofStream
  rw [← Parser.tail_words, ← Parser.tail_words]
  rfl

theorem Regular.sight (h : stream.Regular) (maxDepth : Nat) (journal : Journal) :
    Sight (Parser.ofStream stream maxDepth journal).roundsLeft
      (Parser.ofStream stream maxDepth journal).words := by
  have hbudget : stream.words.length ≤ (Parser.ofStream stream maxDepth journal).roundsLeft := by
    unfold Parser.ofStream Parser.roundsLeft words
    rw [Parser.stream_shift, Parser.stream_shift, List.length_tail, List.length_tail,
      List.length_map]
    dsimp only
    omega
  have hend (place : Nat) (hplace : stream.words.length ≤ place) :
      ((stream.words ++ₛ Stream'.const stream.endMark.word).get place).kind = .eof := by
    obtain ⟨more, rfl⟩ := Nat.exists_eq_add_of_le hplace
    rw [Stream'.get_append_right, Stream'.get_const]
    exact h.endMark
  rw [words_ofStream]
  constructor
  · intro place
    by_cases hplace : place < stream.words.length
    · obtain ⟨scanned, hs, hword⟩ := List.mem_map.mp (List.getElem_mem hplace)
      rw [Stream'.get_append_left _ _ _ hplace]
      exact hword ▸ (h.proper scanned hs).1
    · refine spelt_of_not_isFixed ?_
      rw [hend place (Nat.le_of_not_lt hplace)]
      rfl
  · exact fun place hplace => hend place (Nat.le_trans hbudget hplace)

/-- A parser without a fault on a stream has drawn no fault from it. -/
theorem moves_ofStream {maxDepth : Nat} {journal : Journal}
    (h : (Parser.ofStream stream maxDepth journal).fault = none) :
    ∃ drawn, stream.pending = drawn ++ (Parser.ofStream stream maxDepth journal).stream.pending ∧
      ∀ scanned ∈ drawn, scanned.fault = none :=
  ((Parser.moves_shift (Parser.fault_of_shift h)).trans (Parser.moves_shift h)).drawn

end TokenStream

/-- A parser whose words are the end again and again has drawn all the tokens. -/
theorem Parser.pending_of_words {parser : Parser} {word : Word}
    (h : parser.words = Stream'.const word) (hword : word.kind = .eof)
    (hpending : ∀ scanned ∈ parser.stream.pending, scanned.token.kind ≠ .eof) :
    parser.stream.pending = [] := by
  unfold words at h
  cases hp : parser.stream.pending with
  | nil => rfl
  | cons scanned rest =>
    rw [hp] at h hpending
    have hthird : scanned.token.word = word := congrArg (Stream'.get · 2) h
    rw [← hthird] at hword
    exact absurd hword (hpending scanned List.mem_cons_self)

/-- A source that is parsed holds no lexical fault, and its tokens stand for the tree. -/
theorem Program.rendered_of_parse {source : String} {maxDepth : Nat} {journal : Journal}
    {tree : Program} (h : (parse source maxDepth journal).1 = .ok tree) :
    (∀ scanned ∈ (TokenStream.ofString source).pending, scanned.fault = none) ∧
      tree.Rendered (TokenStream.ofString source).words := by
  have hregular := TokenStream.regular_ofString source
  unfold parse Parser.ofString at h
  generalize TokenStream.ofString source = stream at h hregular ⊢
  have hsight := hregular.sight maxDepth journal
  have hwords := stream.words_ofStream maxDepth journal
  have hdrawn := @TokenStream.moves_ofStream stream maxDepth journal
  generalize Parser.ofStream stream maxDepth journal = parser at h hsight hwords hdrawn
  obtain ⟨after, hrun⟩ : ∃ after, Parser.parseProgram parser = (.ok tree, after) :=
    ⟨_, Prod.ext h rfl⟩
  obtain ⟨_, started, hstart, hstarted⟩ := Attempt.bind_eq_ok hrun
  obtain ⟨_, same, hget, hgot⟩ := Attempt.bind_eq_ok hstarted
  obtain ⟨read, last, hread, hlast⟩ := Attempt.bind_eq_ok hgot
  unfold raiseFault at hstart
  split at hstart
  next hnone =>
    cases hstart
    cases hget
    cases hlast
    obtain ⟨passed, hmoves, later, rfl, hlater, hend⟩ :=
      (Nested.gathers_statements _).takes (Nested.lossless_at _ _) hsight.ends hsight parser read
        last rfl hread
    obtain ⟨drawn, hpending, hclean⟩ := hdrawn hnone
    obtain ⟨more, hmore, hclear⟩ := hmoves.drawn
    -- the statements take all the words in front of the end mark, and so all the tokens
    have hstop : (Stream'.const stream.endMark.word).head.kind = .eof := hregular.endMark
    obtain ⟨rfl, hrest⟩ := hlater.endless.unique hregular.endless hend hstop
      (hmoves.words_eq.symm.trans hwords)
    have hnothing : last.stream.pending = [] := by
      refine Parser.pending_of_words hrest hregular.endMark fun scanned hs => ?_
      refine (hregular.proper scanned ?_).2
      rw [hpending, hmore]
      exact List.mem_append_right _ (List.mem_append_right _ hs)
    constructor
    · rw [hpending, hmore, hnothing, List.append_nil]
      exact List.forall_mem_append.mpr ⟨hclean, hclear⟩
    · rw [List.append_nil, Program.Rendered, List.reverse_reverse]
      exact hlater
  next => cases hstart

/-- Semicolons where none is needed, a literal that loses its name, parentheses that are needed
and a number in hexadecimal digits. -/
theorem Program.rendered_of_parse_renamed :
    let source := ";let f = fn g(a) \x7b -a * (2 - 1) \x7d\nf(0x10);;"
    let tree : Program := ⟨[
      .bind "f" (.function (some "f") ["a"] (.mk [.expr (.binary .mul
          (.unary .negate (.ident "a" ⟨20, 21⟩) ⟨19, 21⟩)
          (.binary .sub (.integer 2 ⟨25, 26⟩) (.integer 1 ⟨29, 30⟩) ⟨24, 31⟩) ⟨19, 31⟩) ⟨19, 31⟩]
        ⟨17, 33⟩) ⟨9, 33⟩) ⟨1, 33⟩,
      .expr (.call (.ident "f" ⟨34, 35⟩) [.integer 16 ⟨36, 40⟩] ⟨34, 41⟩) ⟨34, 41⟩]⟩
    (parse source 64 (.opened .off)).1 = .ok tree ∧
      (∀ scanned ∈ (TokenStream.ofString source).pending, scanned.fault = none) ∧
        tree.Rendered (TokenStream.ofString source).words := by
  intro source tree
  have hparse : (parse source 64 (.opened .off)).1 = .ok tree := by
    decide +kernel +zetaReduce
  exact ⟨hparse, rendered_of_parse hparse⟩

end Simian
