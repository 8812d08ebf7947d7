import Mathlib.Data.List.Nodup
import Simian.Proofs.WordReading

/-!
# Reading phrases

What each rule of the parser reads, for any way to read the parts. A rule for a list takes
the items that are left in the order of the words, and a rule for an operator finds its
left operand read.
-/
namespace Simian

open Parse Word

/-! ### Numbers -/

namespace Numeral

theorem digitValue?_of_isDigit {c : Char} (h : c.isDigit = true) :
    digitValue? c = some (c.toNat - '0'.toNat) ∧ c.toNat - '0'.toNat < 10 ∧ c ≠ '_' := by
  refine ⟨if_pos h, ?_, ?_⟩
  · have hbounds := Char.isDigit_iff_toNat.mp h
    have hnine : '9'.toNat = '0'.toNat + 9 := rfl
    omega
  · rintro rfl
    cases h

/-- Decimal digits are read as the number that they stand for. -/
theorem readDigits_digits {digits : List Char} (h : ∀ c ∈ digits, c.isDigit = true) {value : Nat}
    {afterDigit : Bool} (hne : digits ≠ [] ∨ afterDigit = true) :
    readDigits 10 value afterDigit digits = some (Nat.ofDigitChars 10 digits value) := by
  induction digits generalizing value afterDigit with
  | nil =>
    rw [readDigits, if_pos (hne.resolve_left fun hn => hn rfl)]
    rfl
  | cons c rest ih =>
    obtain ⟨hdigit, hlt, hbar⟩ := digitValue?_of_isDigit (h c List.mem_cons_self)
    rw [readDigits, if_neg hbar, hdigit]
    dsimp only
    rw [if_pos hlt, ih (fun d hd => h d (List.mem_cons_of_mem _ hd)) (.inr rfl),
      Nat.ofDigitChars_cons, Nat.mul_comm]

/-- The decimal digits of a number start with a zero only if they are a single zero. -/
theorem head?_toDigits {n : Nat} (h : n ≠ 0) : (Nat.toDigits 10 n).head? ≠ some '0' := by
  induction n using Nat.strongRecOn with
  | ind n ih =>
    by_cases hlt : n < 10
    · rw [Nat.toDigits_of_lt_base hlt]
      intro he
      exact h (Nat.digitChar_eq_zero.mp (Option.some.inj he))
    · have hdiv : n / 10 ≠ 0 := by omega
      rw [Nat.toDigits_of_base_le (by decide) (Nat.le_of_not_lt hlt),
        List.head?_append_of_ne_nil _ Nat.toDigits_ne_nil]
      exact ih (n / 10) (by omega) hdiv

theorem split_toDigits (n : Nat) : split (Nat.toDigits 10 n) = (10, Nat.toDigits 10 n) := by
  by_cases h : n = 0
  · subst h
    rfl
  · have hhead := head?_toDigits h
    generalize Nat.toDigits 10 n = digits at hhead
    unfold split
    split
    all_goals first | rfl | exact absurd rfl hhead

/-- The decimal digits of an integer that is not negative are read as the integer. -/
theorem read?_repr {value : Int64} (h : 0 ≤ value) :
    read? (Nat.repr value.toNatClampNeg).toList = some value := by
  have hle : value.toNatClampNeg ≤ Int64.maxValue.toNatClampNeg := by
    rw [← Int64.toNat_toInt, ← Int64.toNat_toInt]
    exact Int.toNat_le_toNat value.toInt_le
  have hdigits : ∀ c ∈ Nat.toDigits 10 value.toNatClampNeg, c.isDigit = true :=
    fun c hc => Nat.isDigit_of_mem_toDigits (by decide) (by decide) hc
  rw [Nat.toList_repr, read?, split_toDigits]
  dsimp only
  rw [readDigits_digits hdigits (.inl Nat.toDigits_ne_nil),
    Nat.ofDigitChars_toDigits (by decide) (by decide)]
  dsimp only
  rw [if_pos hle, Int64.ofNat_toNatClampNeg value h]

end Numeral
namespace Nested

variable {inner : Nested} {depth limit rounds : Nat} {words more rest : List Word} {parser : Parser}

/-! ### Parameters -/

theorem moreParameters_gets {names taken : List String} (hnodup : (names.reverse ++ taken).Nodup)
    (hrounds : names.length ≤ rounds) (hstop : (rest.headD .eof).kind ≠ .comma)
    (hfaces : parser.Faces depth limit (moreNames names ++ rest)) :
    (moreParameters taken rounds).Gets parser fun value after =>
      value = names.reverse ++ taken ∧ after.Faces depth limit rest := by
  induction names generalizing taken rounds parser with
  | nil =>
    cases rounds with
    | zero => exact gets_pure ⟨rfl, hfaces⟩
    | succ rounds => exact hfaces.peekIs (gets_neg (beq_eq_false_iff_ne.mpr hstop)
        (gets_pure ⟨rfl, hfaces⟩))
  | cons first names ih =>
    rw [List.reverse_cons, List.append_assoc] at hnodup ⊢
    obtain ⟨fewer, rfl⟩ : ∃ fewer, rounds = fewer + 1 := Nat.exists_eq_succ_of_ne_zero (by
      intro h
      rw [h] at hrounds
      cases hrounds)
    refine hfaces.peekIs (gets_pos rfl (hfaces.advance.bind fun _ after hcomma => ?_))
    refine (hcomma.faces.expectPeek rfl).bind fun _ later hname => gets_current ?_
    have hliteral : later.current.literal = first := hname.literal
    have hfirst : first ∉ taken := by
      intro hm
      have hdisjoint := (List.nodup_append.mp hnodup).2.1
      exact (List.nodup_cons.mp hdisjoint).1 hm
    rw [hliteral]
    refine gets_neg (Bool.eq_false_iff.mpr fun hc => hfirst (List.contains_iff_mem.mp hc)) ?_
    exact ih hnodup (Nat.le_of_succ_le_succ hrounds) hname.faces

theorem parameters_reads {names : List String} (hnodup : names.Nodup)
    (hrounds : names.length ≤ rounds) : (parameters rounds).Reads depth limit
      (inParens (Word.names names) ++ rest) rest (· = names) := by
  intro parser hat
  rw [enclosed_append] at hat
  have hfaces := hat.faces
  cases names with
  | nil =>
    refine hfaces.peekIs (gets_pos rfl (hfaces.advance.bind fun _ after hclose => ?_))
    exact gets_pure ⟨rfl, hclose.faces⟩
  | cons first names =>
    refine hfaces.peekIs (gets_neg rfl ?_)
    refine (hfaces.expectPeek rfl).bind fun _ later hname => gets_current ?_
    have hliteral : later.current.literal = first := hname.literal
    dsimp only
    rw [hliteral]
    have hreverse : (names.reverse ++ [first]).Nodup := by
      rw [← List.reverse_cons]
      exact List.nodup_reverse.mpr hnodup
    refine (moreParameters_gets hreverse (Nat.le_of_succ_le hrounds) Token.Kind.noConfusion
      hname.faces).bind ?_
    rintro _ after ⟨rfl, hafter⟩
    refine (hafter.expectPeek rfl).bind fun _ last hclose => gets_pure ⟨?_, hclose.faces⟩
    rw [List.reverse_append, List.reverse_reverse]
    rfl

/-! ### Lists of items -/

/-- The rule for further items reads the words as the items. -/
def ReadsMoreItems (inner : Nested) (depth limit : Nat) (items : List Expr)
    (words rest : List Word) : Prop :=
  ∀ (taken : List Expr) (rounds : Nat) (parser : Parser), items.length ≤ rounds →
    parser.Faces depth limit (words ++ rest) →
    (inner.moreItems taken rounds).Gets parser fun value after =>
      bareExprs value = bareExprs (items.reverse ++ taken) ∧ after.Faces depth limit rest

theorem readsMoreItems_nil (hstop : (rest.headD .eof).kind ≠ .comma) :
    inner.ReadsMoreItems depth limit [] [] rest := by
  intro taken rounds parser _ hfaces
  cases rounds with
  | zero => exact gets_pure ⟨rfl, hfaces⟩
  | succ rounds =>
    exact hfaces.peekIs (gets_neg (beq_eq_false_iff_ne.mpr hstop) (gets_pure ⟨rfl, hfaces⟩))

theorem ReadsMoreItems.cons {item : Expr} {items : List Expr}
    (hitem : (inner.expression .lowest).Reads depth limit (words ++ (more ++ rest)) (more ++ rest)
      (·.bare = item.bare))
    (hmore : inner.ReadsMoreItems depth limit items more rest) :
    inner.ReadsMoreItems depth limit (item :: items) (sign .comma :: (words ++ more)) rest := by
  intro taken rounds parser hrounds hfaces
  cases rounds with
  | zero => cases hrounds
  | succ rounds =>
    rw [List.cons_append, List.append_assoc] at hfaces
    refine hfaces.peekIs (gets_pos rfl (hfaces.advance.bind fun _ after hcomma => ?_))
    refine hcomma.faces.advance.bind fun _ later hfirst => ?_
    refine (hitem later hfirst).bind fun value last hvalue => ?_
    obtain ⟨result, final, hrun, hresult, hfinal⟩ :=
      hmore (value :: taken) rounds last (Nat.le_of_succ_le_succ hrounds) hvalue.2
    refine ⟨result, final, hrun, hresult.trans ?_, hfinal⟩
    simp only [bareExprs_eq_map, List.reverse_cons, List.append_assoc, List.map_append,
      List.map_cons, List.nil_append, List.cons_append, hvalue.1]

/-- The rule for items reads the words as the items, and takes the closing bracket too. -/
def ReadsItems (inner : Nested) (depth limit rounds : Nat) (closing : Token.Kind)
    (items : List Expr) (words rest : List Word) : Prop :=
  ∀ parser : Parser, parser.Faces depth limit (words ++ sign closing :: rest) →
    (inner.items rounds closing).Gets parser fun value after =>
      bareExprs value = bareExprs items ∧ after.Faces depth limit rest

theorem readsItems_none {closing : Token.Kind} :
    inner.ReadsItems depth limit rounds closing [] [] rest := by
  intro parser hfaces
  refine hfaces.peekIs (gets_pos (beq_self_eq_true _) ?_)
  exact hfaces.advance.bind fun _ after hclose => gets_pure ⟨rfl, hclose.faces⟩

theorem readsItems_some {closing : Token.Kind} {item : Expr} {items : List Expr}
    (hopens : ((words ++ (more ++ sign closing :: rest)).headD .eof).kind ≠ closing)
    (hrounds : items.length ≤ rounds)
    (hitem : (inner.expression .lowest).Reads depth limit (words ++ (more ++ sign closing :: rest))
      (more ++ sign closing :: rest) (·.bare = item.bare))
    (hmore : inner.ReadsMoreItems depth limit items more (sign closing :: rest)) :
    inner.ReadsItems depth limit rounds closing (item :: items) (words ++ more) rest := by
  intro parser hfaces
  rw [List.append_assoc] at hfaces
  refine hfaces.peekIs (gets_neg (beq_eq_false_iff_ne.mpr hopens) ?_)
  refine hfaces.advance.bind fun _ after hfirst => ?_
  refine (hitem after hfirst).bind fun value later hvalue => ?_
  refine (hmore [value] rounds later hrounds hvalue.2).bind fun result last hresult => ?_
  refine (hresult.2.expectPeek rfl).bind fun _ final hclose => gets_pure ⟨?_, hclose.faces⟩
  have hreverse := congrArg List.reverse hresult.1
  simp only [bareExprs_eq_map, ← List.map_reverse, List.reverse_append, List.reverse_reverse,
    List.reverse_cons, List.reverse_nil, List.nil_append, List.cons_append, List.map_cons,
    hvalue.1] at hreverse ⊢
  exact hreverse

/-! ### Entries of a hash -/

theorem entry_gets {key value : Expr}
    (hkey : (inner.expression .lowest).Reads depth limit
      (words ++ sign .colon :: (more ++ rest)) (sign .colon :: (more ++ rest)) (·.bare = key.bare))
    (hvalue : (inner.expression .lowest).Reads depth limit (more ++ rest) rest
      (·.bare = value.bare))
    (hfaces : parser.Faces depth limit (words ++ sign .colon :: (more ++ rest))) :
    inner.entry.Gets parser fun pair after =>
      (pair.1.bare, pair.2.bare) = (key.bare, value.bare) ∧ after.Faces depth limit rest := by
  refine hfaces.advance.bind fun _ after hfirst => ?_
  refine (hkey after hfirst).bind fun first later hread => ?_
  refine (hread.2.expectPeek rfl).bind fun _ last hcolon => ?_
  refine hcolon.faces.advance.bind fun _ final hsecond => ?_
  refine (hvalue final hsecond).bind fun second end' hlast => gets_pure ⟨?_, hlast.2⟩
  rw [hread.1, hlast.1]

/-- The rule for further entries reads the words as the entries. -/
def ReadsMoreEntries (inner : Nested) (depth limit : Nat) (entries : List (Expr × Expr))
    (words rest : List Word) : Prop :=
  ∀ (taken : List (Expr × Expr)) (rounds : Nat) (parser : Parser), entries.length ≤ rounds →
    parser.Faces depth limit (words ++ rest) →
    (inner.moreEntries taken rounds).Gets parser fun value after =>
      bareEntries value = bareEntries (entries.reverse ++ taken) ∧ after.Faces depth limit rest

theorem readsMoreEntries_nil (hstop : (rest.headD .eof).kind ≠ .comma) :
    inner.ReadsMoreEntries depth limit [] [] rest := by
  intro taken rounds parser _ hfaces
  cases rounds with
  | zero => exact gets_pure ⟨rfl, hfaces⟩
  | succ rounds =>
    exact hfaces.peekIs (gets_neg (beq_eq_false_iff_ne.mpr hstop) (gets_pure ⟨rfl, hfaces⟩))

theorem ReadsMoreEntries.cons {key value : Expr} {entries : List (Expr × Expr)} {last : List Word}
    (hkey : (inner.expression .lowest).Reads depth limit
      (words ++ sign .colon :: (more ++ (last ++ rest))) (sign .colon :: (more ++ (last ++ rest)))
      (·.bare = key.bare))
    (hvalue : (inner.expression .lowest).Reads depth limit (more ++ (last ++ rest)) (last ++ rest)
      (·.bare = value.bare))
    (hmore : inner.ReadsMoreEntries depth limit entries last rest) :
    inner.ReadsMoreEntries depth limit ((key, value) :: entries)
      (sign .comma :: (words ++ sign .colon :: (more ++ last))) rest := by
  intro taken rounds parser hrounds hfaces
  cases rounds with
  | zero => cases hrounds
  | succ rounds =>
    rw [List.cons_append, List.append_assoc, List.cons_append, List.append_assoc] at hfaces
    refine hfaces.peekIs (gets_pos rfl (hfaces.advance.bind fun _ after hcomma => ?_))
    refine (entry_gets hkey hvalue hcomma.faces).bind fun pair later hpair => ?_
    obtain ⟨result, final, hrun, hresult, hfinal⟩ :=
      hmore (pair :: taken) rounds later (Nat.le_of_succ_le_succ hrounds) hpair.2
    refine ⟨result, final, hrun, hresult.trans ?_, hfinal⟩
    simp only [bareEntries_eq_map, List.reverse_cons, List.append_assoc, List.map_append,
      List.map_cons, List.nil_append, List.cons_append, hpair.1]

theorem hash_reads_none {span : Span} : (inner.hash rounds).Reads depth limit
    (inBraces [] ++ rest) rest (·.bare = (Expr.hash [] span).bare) := by
  intro parser hat
  rw [enclosed_append] at hat
  have hfaces := hat.faces
  refine gets_current (hfaces.peekIs (gets_pos rfl ?_))
  refine (hfaces.expectPeek rfl).bind fun _ after hclose => gets_current ?_
  refine gets_pure ⟨?_, hclose.faces⟩
  simp only [Expr.bare]
  rfl

theorem hash_reads_some {key value : Expr} {entries : List (Expr × Expr)} {span : Span}
    {last : List Word}
    (hopens : ((words ++ sign .colon :: (more ++ (last ++ sign .rightBrace :: rest))).headD .eof).kind
      ≠ .rightBrace)
    (hrounds : entries.length ≤ rounds)
    (hkey : (inner.expression .lowest).Reads depth limit
      (words ++ sign .colon :: (more ++ (last ++ sign .rightBrace :: rest)))
      (sign .colon :: (more ++ (last ++ sign .rightBrace :: rest))) (·.bare = key.bare))
    (hvalue : (inner.expression .lowest).Reads depth limit
      (more ++ (last ++ sign .rightBrace :: rest)) (last ++ sign .rightBrace :: rest)
      (·.bare = value.bare))
    (hmore : inner.ReadsMoreEntries depth limit entries last (sign .rightBrace :: rest)) :
    (inner.hash rounds).Reads depth limit
      (inBraces (words ++ sign .colon :: (more ++ last)) ++ rest) rest
      (·.bare = (Expr.hash ((key, value) :: entries) span).bare) := by
  intro parser hat
  rw [enclosed_append, List.append_assoc, List.cons_append, List.append_assoc] at hat
  have hfaces := hat.faces
  refine gets_current (hfaces.peekIs (gets_neg (beq_eq_false_iff_ne.mpr hopens) ?_))
  refine (entry_gets hkey hvalue hfaces).bind fun pair after hpair => ?_
  refine (hmore [pair] rounds after hrounds hpair.2).bind fun result later hresult => ?_
  refine (hresult.2.expectPeek rfl).bind fun _ final hclose => gets_current ?_
  refine gets_pure ⟨?_, hclose.faces⟩
  have hreverse := congrArg List.reverse hresult.1
  simp only [bareEntries_eq_map, ← List.map_reverse, List.reverse_append, List.reverse_reverse,
    List.reverse_cons, List.reverse_nil, List.nil_append, List.cons_append, List.map_cons,
    hpair.1, Expr.bare] at hreverse ⊢
  rw [hreverse]

/-! ### Branches and functions -/

theorem ifThen_reads {condition : Expr} {block : Block} {span : Span}
    (hcondition : (inner.expression .lowest).Reads depth limit
      (words ++ sign .rightParen :: (inBraces more ++ rest))
      (sign .rightParen :: (inBraces more ++ rest)) (·.bare = condition.bare))
    (hblock : inner.block.Reads depth limit (inBraces more ++ rest) rest (·.bare = block.bare))
    (hstop : (rest.headD .eof).kind ≠ .elseWord) :
    inner.conditional.Reads depth limit (sign .ifWord :: (inParens words ++ inBraces more) ++ rest)
      rest (·.bare = (Expr.ifThen condition block span).bare) := by
  intro parser hat
  rw [List.cons_append, List.append_assoc, enclosed_append] at hat
  refine gets_current ((hat.faces.expectPeek rfl).bind fun _ after hopen => ?_)
  refine hopen.faces.advance.bind fun _ later hfirst => ?_
  refine (hcondition later hfirst).bind fun test last htest => ?_
  refine (htest.2.expectPeek rfl).bind fun _ next hclose => ?_
  refine (hclose.faces.expectPeek rfl).bind fun _ begun hbrace => ?_
  refine (hblock begun hbrace).bind fun body final hbody => ?_
  refine hbody.2.peekIs (gets_neg (beq_eq_false_iff_ne.mpr hstop) (gets_current ?_))
  refine gets_pure ⟨?_, hbody.2⟩
  simp only [Expr.bare, htest.1, hbody.1]

theorem ifElse_reads {condition : Expr} {block other : Block} {span : Span} {last : List Word}
    (hcondition : (inner.expression .lowest).Reads depth limit
      (words ++ sign .rightParen :: (inBraces more ++ sign .elseWord :: (inBraces last ++ rest)))
      (sign .rightParen :: (inBraces more ++ sign .elseWord :: (inBraces last ++ rest)))
      (·.bare = condition.bare))
    (hblock : inner.block.Reads depth limit
      (inBraces more ++ sign .elseWord :: (inBraces last ++ rest))
      (sign .elseWord :: (inBraces last ++ rest)) (·.bare = block.bare))
    (hother : inner.block.Reads depth limit (inBraces last ++ rest) rest (·.bare = other.bare)) :
    inner.conditional.Reads depth limit
      (sign .ifWord :: (inParens words ++ (inBraces more ++ sign .elseWord :: inBraces last)) ++ rest)
      rest (·.bare = (Expr.ifElse condition block other span).bare) := by
  intro parser hat
  rw [List.cons_append, List.append_assoc, enclosed_append, List.append_assoc,
    List.cons_append] at hat
  refine gets_current ((hat.faces.expectPeek rfl).bind fun _ after hopen => ?_)
  refine hopen.faces.advance.bind fun _ later hfirst => ?_
  refine (hcondition later hfirst).bind fun test last htest => ?_
  refine (htest.2.expectPeek rfl).bind fun _ next hclose => ?_
  refine (hclose.faces.expectPeek rfl).bind fun _ begun hbrace => ?_
  refine (hblock begun hbrace).bind fun body ended hbody => ?_
  refine hbody.2.peekIs (gets_pos rfl (hbody.2.advance.bind fun _ turned helse => ?_))
  refine (helse.faces.expectPeek rfl).bind fun _ again hbrace' => ?_
  refine (hother again hbrace').bind fun body' final hbody' => gets_current ?_
  refine gets_pure ⟨?_, hbody'.2⟩
  simp only [Expr.bare, htest.1, hbody.1, hbody'.1]

theorem function_reads {name : Option String} {parameters : List String} {body : Block}
    {span : Span} (hnodup : parameters.Nodup) (hrounds : parameters.length ≤ rounds)
    (hblock : inner.block.Reads depth limit (inBraces words ++ rest) rest (·.bare = body.bare)) :
    (inner.function rounds).Reads depth limit (sign .fnWord :: (name.toList.map Word.name ++
      (inParens (names parameters) ++ inBraces words)) ++ rest) rest
      (·.bare = (Expr.function name parameters body span).bare) := by
  intro parser hat
  rw [List.cons_append, List.append_assoc, List.append_assoc] at hat
  -- behind the name the parameters and the body follow in both cases
  have hrest : ∀ (start : Span) (begun : Parser), begun.Faces depth limit
      (inParens (names parameters) ++ (inBraces words ++ rest)) →
      Gets (do
        expectPeek .leftParen
        let names ← rule "Parameters" (Nested.parameters rounds)
        expectPeek .leftBrace
        let body ← inner.block
        pure (Expr.function name names body (start.merge (← current).span))) begun fun value after =>
          value.bare = (Expr.function name parameters body span).bare ∧
            after.Faces depth limit rest := by
    intro start begun hfaces
    refine (hfaces.expectPeek rfl).bind fun _ after hopen => ?_
    refine ((parameters_reads hnodup hrounds).rule _ after hopen).bind fun _ later hread => ?_
    obtain ⟨rfl, hlater⟩ := hread
    refine (hlater.expectPeek rfl).bind fun _ last hbrace => ?_
    refine (hblock last hbrace).bind fun block final hbody => gets_current ?_
    refine gets_pure ⟨?_, hbody.2⟩
    simp only [Expr.bare, hbody.1]
  have hfaces := hat.faces
  cases name with
  | none => exact gets_current (hfaces.peekIs (gets_neg rfl (hrest _ parser hfaces)))
  | some text =>
    refine gets_current (hfaces.peekIs (gets_pos rfl (hfaces.advance.bind fun _ after hname => ?_)))
    have hliteral : after.current.literal = text := hname.literal
    refine gets_current ?_
    have hbehind := hrest parser.current.span after hname.faces
    rw [← hliteral] at hbehind ⊢
    exact hbehind

/-! ### Operators in front, groups and lists -/

theorem unary_reads {op : UnaryOp} {tree : Expr} {span : Span}
    (h : (inner.expression .unary).Reads depth limit (words ++ rest) rest (·.bare = tree.bare)) :
    (inner.unary op).Reads depth limit (sign op.kind :: words ++ rest) rest
      (·.bare = (Expr.unary op tree span).bare) := by
  intro parser hat
  refine gets_current (hat.faces.advance.bind fun _ after hfirst => ?_)
  refine (h after hfirst).bind fun value later hvalue => gets_pure ⟨?_, hvalue.2⟩
  simp only [Expr.bare, hvalue.1]

theorem group_reads {tree : Expr}
    (h : (inner.expression .lowest).Reads depth limit (words ++ sign .rightParen :: rest)
      (sign .rightParen :: rest) (·.bare = tree.bare)) :
    inner.group.Reads depth limit (inParens words ++ rest) rest (·.bare = tree.bare) := by
  intro parser hat
  rw [enclosed_append] at hat
  refine gets_current (hat.faces.advance.bind fun _ after hfirst => ?_)
  refine (h after hfirst).bind fun value later hvalue => ?_
  refine (hvalue.2.expectPeek rfl).bind fun _ last hclose => gets_current ?_
  exact gets_pure ⟨(Expr.bare_withSpan value _).trans hvalue.1, hclose.faces⟩

theorem array_reads {elements : List Expr} {span : Span}
    (h : inner.ReadsItems depth limit rounds .rightBracket elements words rest) :
    (inner.array rounds).Reads depth limit (inBrackets words ++ rest) rest
      (·.bare = (Expr.array elements span).bare) := by
  intro parser hat
  rw [enclosed_append] at hat
  refine gets_current ((h parser hat.faces).bind fun value after hvalue => gets_current ?_)
  refine gets_pure ⟨?_, hvalue.2⟩
  simp only [Expr.bare, hvalue.1]

/-! ### What starts an expression -/

section
variable {holds : Expr → Prop}

theorem operand_ident {name : String} {span : Span} : (inner.operand rounds).Reads depth limit
    ([Word.name name] ++ rest) rest (·.bare = (Expr.ident name span).bare) := by
  intro parser hat
  have hkind : parser.current.kind = .ident := hat.kind
  have hliteral : parser.current.literal = name := hat.literal
  refine gets_current ?_
  rw [hkind]
  refine gets_pure ⟨?_, hat.faces⟩
  simp only [Expr.bare, hliteral]

theorem operand_integer {value : Int64} {span : Span} (h : 0 ≤ value) :
    (inner.operand rounds).Reads depth limit ([number value.toNatClampNeg] ++ rest) rest
      (·.bare = (Expr.integer value span).bare) := by
  intro parser hat
  have hkind : parser.current.kind = .int := hat.kind
  have hliteral : parser.current.literal = Nat.repr value.toNatClampNeg := hat.literal
  refine gets_current ?_
  rw [hkind]
  dsimp only
  rw [hliteral, Numeral.read?_repr h]
  refine gets_pure ⟨?_, hat.faces⟩
  simp only [Expr.bare]

theorem operand_boolean {value : Bool} {span : Span} : (inner.operand rounds).Reads depth limit
    ([sign (if value then .trueWord else .falseWord)] ++ rest) rest
    (·.bare = (Expr.boolean value span).bare) := by
  intro parser hat
  have hkind : parser.current.kind = if value then .trueWord else .falseWord := hat.kind
  refine gets_current ?_
  rw [hkind]
  cases value <;> refine gets_pure ⟨?_, hat.faces⟩ <;> simp only [Expr.bare]

theorem operand_string {value : String} {span : Span} : (inner.operand rounds).Reads depth limit
    ([Word.string value] ++ rest) rest (·.bare = (Expr.string value span).bare) := by
  intro parser hat
  have hkind : parser.current.kind = .string := hat.kind
  have hliteral : parser.current.literal = value := hat.literal
  refine gets_current ?_
  rw [hkind]
  refine gets_pure ⟨?_, hat.faces⟩
  simp only [Expr.bare, hliteral]

theorem operand_unary {op : UnaryOp}
    (h : (inner.unary op).Reads depth limit (sign op.kind :: words) rest holds) :
    (inner.operand rounds).Reads depth limit (sign op.kind :: words) rest holds := by
  intro parser hat
  have hkind : parser.current.kind = op.kind := hat.kind
  refine gets_current ?_
  rw [hkind]
  cases op <;> exact h.rule _ parser hat

theorem operand_group
    (h : inner.group.Reads depth limit (sign .leftParen :: words) rest holds) :
    (inner.operand rounds).Reads depth limit (sign .leftParen :: words) rest holds := by
  intro parser hat
  have hkind : parser.current.kind = .leftParen := hat.kind
  refine gets_current ?_
  rw [hkind]
  exact h.rule _ parser hat

theorem operand_conditional
    (h : inner.conditional.Reads depth limit (sign .ifWord :: words) rest holds) :
    (inner.operand rounds).Reads depth limit (sign .ifWord :: words) rest holds := by
  intro parser hat
  have hkind : parser.current.kind = .ifWord := hat.kind
  refine gets_current ?_
  rw [hkind]
  exact h.rule _ parser hat

theorem operand_function
    (h : (inner.function rounds).Reads depth limit (sign .fnWord :: words) rest holds) :
    (inner.operand rounds).Reads depth limit (sign .fnWord :: words) rest holds := by
  intro parser hat
  have hkind : parser.current.kind = .fnWord := hat.kind
  refine gets_current ?_
  rw [hkind]
  exact h.rule _ parser hat

theorem operand_array
    (h : (inner.array rounds).Reads depth limit (sign .leftBracket :: words) rest holds) :
    (inner.operand rounds).Reads depth limit (sign .leftBracket :: words) rest holds := by
  intro parser hat
  have hkind : parser.current.kind = .leftBracket := hat.kind
  refine gets_current ?_
  rw [hkind]
  exact h.rule _ parser hat

theorem operand_hash
    (h : (inner.hash rounds).Reads depth limit (sign .leftBrace :: words) rest holds) :
    (inner.operand rounds).Reads depth limit (sign .leftBrace :: words) rest holds := by
  intro parser hat
  have hkind : parser.current.kind = .leftBrace := hat.kind
  refine gets_current ?_
  rw [hkind]
  exact h.rule _ parser hat

end

/-! ### What stands behind an operand -/

/-- The operator of this kind is taken in with the words behind it. -/
def TakesIn (inner : Nested) (depth limit rounds : Nat) (left : Expr) (kind : Token.Kind)
    (words rest : List Word) (holds : Expr → Prop) : Prop :=
  ∃ step, inner.operator? rounds left kind = some step ∧ ∀ parser : Parser,
    parser.Faces depth limit (sign kind :: (words ++ rest)) →
    step.Gets parser fun value after => holds value ∧ after.Faces depth limit rest

theorem joined_reads {left right : Expr} {join : Expr → Expr → Span → Expr} {kind : Token.Kind}
    (h : (inner.expression (.ofKind kind)).Reads depth limit (words ++ rest) rest
      (·.bare = right.bare)) :
    (inner.joined left join).Reads depth limit (sign kind :: (words ++ rest)) rest
      fun value => ∃ other span, value = join left other span ∧ other.bare = right.bare := by
  intro parser hat
  have hkind : parser.current.kind = kind := hat.kind
  refine gets_current ?_
  rw [hkind]
  refine hat.faces.advance.bind fun _ after hfirst => ?_
  refine (h after hfirst).bind fun other later hother => ?_
  exact gets_pure ⟨⟨other, _, rfl, hother.1⟩, hother.2⟩

theorem takesIn_binary {op : BinaryOp} {left tree right : Expr} {span : Span}
    (hleft : left.bare = tree.bare)
    (h : (inner.expression (.ofKind op.kind)).Reads depth limit (words ++ rest) rest
      (·.bare = right.bare)) :
    inner.TakesIn depth limit rounds left op.kind words rest
      (·.bare = (Expr.binary op tree right span).bare) := by
  have hstep : inner.operator? rounds left op.kind = some (do
      Parse.advance
      rule "Infix" (inner.joined left (.binary op))) := by
    cases op <;> rfl
  refine ⟨_, hstep, fun parser hfaces => hfaces.advance.bind fun _ after hop => ?_⟩
  obtain ⟨value, last, hrun, ⟨other, wide, rfl, hother⟩, hlast⟩ :=
    (joined_reads h).rule "Infix" after hop
  refine ⟨_, last, hrun, ?_, hlast⟩
  simp only [Expr.bare, hleft, hother]

theorem takesIn_logical {op : LogicalOp} {left tree right : Expr} {span : Span}
    (hleft : left.bare = tree.bare)
    (h : (inner.expression (.ofKind op.kind)).Reads depth limit (words ++ rest) rest
      (·.bare = right.bare)) :
    inner.TakesIn depth limit rounds left op.kind words rest
      (·.bare = (Expr.logical op tree right span).bare) := by
  have hstep : inner.operator? rounds left op.kind = some (do
      Parse.advance
      rule "Infix" (inner.joined left (.logical op))) := by
    cases op <;> rfl
  refine ⟨_, hstep, fun parser hfaces => hfaces.advance.bind fun _ after hop => ?_⟩
  obtain ⟨value, last, hrun, ⟨other, wide, rfl, hother⟩, hlast⟩ :=
    (joined_reads h).rule "Infix" after hop
  refine ⟨_, last, hrun, ?_, hlast⟩
  simp only [Expr.bare, hleft, hother]

theorem takesIn_bump {op : BumpOp} {left tree : Expr} {span : Span}
    (hleft : left.bare = tree.bare) :
    inner.TakesIn depth limit rounds left op.kind [] rest
      (·.bare = (Expr.bump op tree span).bare) := by
  have hstep : inner.operator? rounds left op.kind = some (do
      Parse.advance
      pure (.bump op left (left.span.merge (← current).span))) := by
    cases op <;> rfl
  refine ⟨_, hstep, fun parser hfaces => hfaces.advance.bind fun _ after hop => ?_⟩
  refine gets_current (gets_pure ⟨?_, hop.faces⟩)
  simp only [Expr.bare, hleft]

theorem takesIn_call {left tree : Expr} {arguments : List Expr} {span : Span}
    (hleft : left.bare = tree.bare)
    (h : inner.ReadsItems depth limit rounds .rightParen arguments words rest) :
    inner.TakesIn depth limit rounds left .leftParen (words ++ [sign .rightParen]) rest
      (·.bare = (Expr.call tree arguments span).bare) := by
  refine ⟨_, rfl, fun parser hfaces => ?_⟩
  rw [List.append_assoc] at hfaces
  have hcall : (inner.call rounds left).Reads depth limit
      (sign .leftParen :: (words ++ sign .rightParen :: rest)) rest
      (·.bare = (Expr.call tree arguments span).bare) := by
    intro begun hat
    refine (h begun hat.faces).bind fun value after hvalue => gets_current ?_
    refine gets_pure ⟨?_, hvalue.2⟩
    simp only [Expr.bare, hleft, hvalue.1]
  exact hfaces.advance.bind fun _ after hopen => hcall.rule _ after hopen

theorem takesIn_index {left tree key : Expr} {span : Span} (hleft : left.bare = tree.bare)
    (h : (inner.expression .lowest).Reads depth limit (words ++ sign .rightBracket :: rest)
      (sign .rightBracket :: rest) (·.bare = key.bare)) :
    inner.TakesIn depth limit rounds left .leftBracket (words ++ [sign .rightBracket]) rest
      (·.bare = (Expr.index tree key span).bare) := by
  refine ⟨_, rfl, fun parser hfaces => ?_⟩
  rw [List.append_assoc] at hfaces
  have hindex : (inner.index left).Reads depth limit
      (sign .leftBracket :: (words ++ sign .rightBracket :: rest)) rest
      (·.bare = (Expr.index tree key span).bare) := by
    intro begun hat
    refine hat.faces.advance.bind fun _ after hfirst => ?_
    refine (h after hfirst).bind fun value later hvalue => ?_
    refine (hvalue.2.expectPeek rfl).bind fun _ last hclose => gets_current ?_
    refine gets_pure ⟨?_, hclose.faces⟩
    simp only [Expr.bare, hleft, hvalue.1]
  exact hfaces.advance.bind fun _ after hopen => hindex.rule _ after hopen

/-- An operator that binds tightly enough is taken in. -/
theorem operators_takesIn {budget : Nat} {precedence : Precedence} {left : Expr}
    {kind : Token.Kind} {holds : Expr → Prop}
    (hweaker : precedence.weaker (.ofKind kind) = true)
    (h : inner.TakesIn depth limit budget left kind words rest holds)
    (hfaces : parser.Faces depth limit (sign kind :: (words ++ rest))) :
    ∃ value after, inner.operators budget precedence left (rounds + 1) parser =
      inner.operators budget precedence value rounds after ∧
        holds value ∧ after.Faces depth limit rest := by
  obtain ⟨step, hstep, hgets⟩ := h
  obtain ⟨value, after, hrun, hvalue, hafter⟩ := hgets parser hfaces
  refine ⟨value, after, ?_, hvalue, hafter⟩
  have hpeek : parser.peek.kind = kind := congrArg Word.kind hfaces.peek
  have hsemicolon : (kind != .semicolon) = true := by
    rw [bne_iff_ne]
    rintro rfl
    cases precedence <;> cases hweaker
  have htakes : (kind != .semicolon && precedence.weaker (.ofKind kind)) = true := by
    rw [hsemicolon, hweaker]
    rfl
  rw [operators, Attempt.bind_of_ok (show Parse.get parser = (.ok parser, parser) from rfl), hpeek,
    if_pos htakes, hstep]
  exact Attempt.bind_of_ok hrun

/-- What binds too weakly is left alone. -/
theorem operators_stop {budget : Nat} {precedence : Precedence} {left : Expr}
    (hstop : precedence.weaker (.ofKind (words.headD .eof).kind) = false)
    (hfaces : parser.Faces depth limit words) :
    inner.operators budget precedence left rounds parser = (.ok left, parser) := by
  cases rounds with
  | zero => rfl
  | succ rounds =>
    have hpeek : parser.peek.kind = (words.headD .eof).kind := congrArg Word.kind hfaces.peek
    rw [operators, Attempt.bind_of_ok (show Parse.get parser = (.ok parser, parser) from rfl),
      hpeek, hstop, Bool.and_false, if_neg Bool.false_ne_true]
    rfl

/-! ### Statements -/

theorem skipSemicolon_gets (h : parser.Faces depth limit (sign .semicolon :: rest)) :
    skipSemicolon.Gets parser fun _ after => after.Faces depth limit rest := by
  refine h.peekIs (gets_pos rfl ?_)
  obtain ⟨value, after, hrun, hat⟩ := h.advance
  exact ⟨value, after, hrun, hat.faces⟩

theorem binding_reads {name : String} {value : Expr} {span : Span}
    (hnamed : value.named name = value)
    (h : (inner.expression .lowest).Reads depth limit (words ++ sign .semicolon :: rest)
      (sign .semicolon :: rest) (·.bare = value.bare)) :
    inner.binding.Reads depth limit
      (sign .letWord :: Word.name name :: sign .assign :: (words ++ sign .semicolon :: rest)) rest
      (·.bare = (Stmt.bind name value span).bare) := by
  intro parser hat
  refine gets_current ((hat.faces.expectPeek rfl).bind fun _ after hname => gets_current ?_)
  have hliteral : after.current.literal = name := hname.literal
  dsimp only
  rw [hliteral]
  refine (hname.faces.expectPeek rfl).bind fun _ later hassign => ?_
  refine hassign.faces.advance.bind fun _ begun hfirst => ?_
  refine (h begun hfirst).bind fun read last hread => ?_
  refine (skipSemicolon_gets hread.2).bind fun _ final hfinal => gets_pure ⟨?_, hfinal⟩
  simp only [Stmt.bare, Expr.bare_named, hread.1]
  rw [← Expr.bare_named, hnamed]

theorem giving_reads {value : Expr} {span : Span}
    (hopens : ∀ kind ∈ [Token.Kind.semicolon, .rightBrace, .eof],
      ((words ++ sign .semicolon :: rest).headD .eof).kind ≠ kind)
    (h : (inner.expression .lowest).Reads depth limit (words ++ sign .semicolon :: rest)
      (sign .semicolon :: rest) (·.bare = value.bare)) :
    inner.giving.Reads depth limit (sign .returnWord :: (words ++ sign .semicolon :: rest)) rest
      (·.bare = (Stmt.ret value span).bare) := by
  intro parser hat
  have hpeek : parser.peek.kind = ((words ++ sign .semicolon :: rest).headD .eof).kind :=
    congrArg Word.kind hat.faces.peek
  refine gets_current (gets_get (gets_neg ?_ ?_))
  · rw [hpeek, Bool.or_eq_false_iff, Bool.or_eq_false_iff]
    simpa [and_assoc] using hopens
  · refine hat.faces.advance.bind fun _ after hfirst => ?_
    refine (h after hfirst).bind fun read later hread => ?_
    refine (skipSemicolon_gets hread.2).bind fun _ last hlast => gets_pure ⟨?_, hlast⟩
    simp only [Stmt.bare, hread.1]

theorem giving_reads_null {span : Span} : inner.giving.Reads depth limit
    (sign .returnWord :: sign .semicolon :: rest) rest
    (·.bare = (Stmt.retNull span).bare) := by
  intro parser hat
  have hpeek : parser.peek.kind = .semicolon := congrArg Word.kind hat.faces.peek
  refine gets_current (gets_get (gets_pos ?_ ?_))
  · rw [hpeek]
    rfl
  · refine (skipSemicolon_gets hat.faces).bind fun _ after hafter => gets_pure ⟨?_, hafter⟩
    simp only [Stmt.bare]

theorem evaluation_reads {value : Expr} {span : Span}
    (h : (inner.expression .lowest).Reads depth limit (words ++ sign .semicolon :: rest)
      (sign .semicolon :: rest) (·.bare = value.bare)) :
    inner.evaluation.Reads depth limit (words ++ sign .semicolon :: rest) rest
      (·.bare = (Stmt.expr value span).bare) := by
  intro parser hat
  refine (h parser hat).bind fun read after hread => ?_
  refine (skipSemicolon_gets hread.2).bind fun _ last hlast => gets_pure ⟨?_, hlast⟩
  simp only [Stmt.bare, hread.1]

section
variable {holds : Stmt → Prop}

theorem statement_bind (h : inner.binding.Reads depth limit (sign .letWord :: words) rest holds) :
    inner.statement.Reads depth limit (sign .letWord :: words) rest holds := by
  refine Reads.rule (fun parser hat => gets_current ?_) _
  have hkind : parser.current.kind = .letWord := hat.kind
  rw [hkind]
  exact h.rule _ parser hat

theorem statement_return
    (h : inner.giving.Reads depth limit (sign .returnWord :: words) rest holds) :
    inner.statement.Reads depth limit (sign .returnWord :: words) rest holds := by
  refine Reads.rule (fun parser hat => gets_current ?_) _
  have hkind : parser.current.kind = .returnWord := hat.kind
  rw [hkind]
  exact h.rule _ parser hat

theorem statement_expression (hlet : (words.headD .eof).kind ≠ .letWord)
    (hreturn : (words.headD .eof).kind ≠ .returnWord)
    (h : inner.evaluation.Reads depth limit words rest holds) :
    inner.statement.Reads depth limit words rest holds := by
  refine Reads.rule (fun parser hat => gets_current ?_) _
  rw [← hat.kind] at hlet hreturn
  split
  next he => exact absurd he hlet
  next he => exact absurd he hreturn
  next => exact h.rule _ parser hat

end

/-! ### Lists of statements -/

/-- A loop that goes on with one statement after the other. -/
def Loops (inner : Nested) (loop : List Stmt → Nat → Parse (List Stmt)) : Prop :=
  ∀ (taken : List Stmt) (rounds : Nat) (parser : Parser),
    parser.current.kind ∉ [Token.Kind.semicolon, .rightBrace, .eof] →
    loop taken (rounds + 1) parser =
      (inner.statement >>= fun stmt => advance >>= fun _ => loop (stmt :: taken) rounds) parser

theorem loops_blockStatements : inner.Loops inner.blockStatements := by
  intro taken rounds parser hkind
  rw [List.mem_cons, List.mem_cons, List.mem_singleton, not_or, not_or] at hkind
  rw [blockStatements,
    Attempt.bind_of_ok (show current parser = (.ok parser.current, parser) from rfl)]
  refine congrFun ?_ parser
  split
  next he => exact absurd he hkind.2.1
  next he => exact absurd he hkind.2.2
  next he => exact absurd he hkind.1
  next => rfl

/-- Such a loop reads the words as the statements. -/
def ReadsStmts (inner : Nested) (depth limit : Nat) (statements : List Stmt)
    (words rest : List Word) : Prop :=
  ∀ loop, inner.Loops loop → ∀ (taken : List Stmt) (rounds : Nat) (parser : Parser),
    statements.length ≤ rounds → parser.At depth limit (words ++ rest) →
    ∃ read fewer after, loop taken rounds parser = loop read fewer after ∧
      bareStmts read = bareStmts (statements.reverse ++ taken) ∧ after.At depth limit rest

theorem readsStmts_nil : inner.ReadsStmts depth limit [] [] rest :=
  fun _ _ taken rounds parser _ hat => ⟨taken, rounds, parser, rfl, rfl, hat⟩

theorem ReadsStmts.cons {stmt : Stmt} {statements : List Stmt}
    (hopens : ((words ++ (more ++ rest)).headD .eof).kind ∉
      [Token.Kind.semicolon, .rightBrace, .eof])
    (hstmt : inner.statement.Reads depth limit (words ++ (more ++ rest)) (more ++ rest)
      (·.bare = stmt.bare))
    (hmore : inner.ReadsStmts depth limit statements more rest) :
    inner.ReadsStmts depth limit (stmt :: statements) (words ++ more) rest := by
  intro loop hloop taken rounds parser hrounds hat
  cases rounds with
  | zero => cases hrounds
  | succ rounds =>
    rw [List.append_assoc] at hat
    rw [← hat.kind] at hopens
    obtain ⟨value, after, hrun, hvalue, hfaces⟩ := hstmt parser hat
    obtain ⟨_, later, hmove, hlater⟩ := hfaces.advance
    obtain ⟨read, fewer, last, hrest, hread, hlast⟩ :=
      hmore loop hloop (value :: taken) rounds later (Nat.le_of_succ_le_succ hrounds) hlater
    refine ⟨read, fewer, last, ?_, hread.trans ?_, hlast⟩
    · rw [hloop taken rounds parser hopens, Attempt.bind_of_ok hrun, Attempt.bind_of_ok hmove,
        hrest]
    · simp only [bareStmts_eq_map, List.reverse_cons, List.append_assoc, List.map_append,
        List.map_cons, List.nil_append, List.cons_append, hvalue]

theorem blockStatements_stop {read : List Stmt}
    (hat : parser.At depth limit (sign .rightBrace :: rest)) :
    inner.blockStatements read rounds parser = (.ok read, parser) := by
  cases rounds with
  | zero => rfl
  | succ rounds =>
    have hkind : parser.current.kind = .rightBrace := hat.kind
    rw [blockStatements,
      Attempt.bind_of_ok (show current parser = (.ok parser.current, parser) from rfl), hkind]
    rfl

theorem block_reads {statements : List Stmt} {span : Span} (hrounds : statements.length ≤ rounds)
    (h : inner.ReadsStmts depth limit statements words (sign .rightBrace :: rest)) :
    (inner.blockRule rounds).Reads depth limit (inBraces words ++ rest) rest
      (·.bare = (Block.mk statements span).bare) := by
  intro parser hat
  rw [enclosed_append] at hat
  have hkind : parser.current.kind = .leftBrace := hat.kind
  have hopen : (expectCurrent .leftBrace).Gets parser fun _ after => after = parser := by
    refine ⟨(), parser, ?_, rfl⟩
    unfold expectCurrent
    rw [if_pos (by rw [hkind, beq_self_eq_true])]
  refine gets_current (hopen.bind fun _ begun he => ?_)
  subst he
  refine hat.faces.advance.bind fun _ after hfirst => ?_
  obtain ⟨read, fewer, last, hrun, hread, hlast⟩ :=
    h inner.blockStatements loops_blockStatements [] rounds after hrounds hfirst
  have hstatements : (inner.blockStatements [] rounds).Gets after fun value later =>
      value = read ∧ later = last :=
    ⟨read, last, hrun.trans (blockStatements_stop hlast), rfl, rfl⟩
  refine hstatements.bind fun value later hend => ?_
  rw [hend.1, hend.2]
  have hclose : last.current.kind = .rightBrace := hlast.kind
  refine gets_currentIs (gets_neg (by rw [hclose]; rfl) ?_)
  refine gets_current (gets_pure ⟨?_, hlast.faces⟩)
  have hreverse := congrArg List.reverse hread
  simp only [bareStmts_eq_map, ← List.map_reverse, List.reverse_append, List.reverse_reverse,
    List.reverse_nil, List.nil_append, Block.bare] at hreverse ⊢
  rw [hreverse]

end Nested

end Simian
