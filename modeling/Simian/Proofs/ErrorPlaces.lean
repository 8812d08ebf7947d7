import Simian.Proofs.RuleProperties
import Simian.Proofs.TokenTiling

/-!
# The places of parse errors

An error that a reading rule raises has the position and the span of the one token that it is
about, so both name the same place. A fault of the lexer is raised one token late: it has the
position of the text that was rejected, but the span of the token before it
(`ParseError.Located`). The two are apart whenever a token stands before the rejected text.
-/
namespace Simian

open Parse

/-- What the error of a parse says of its place, for the tokens that the source has. -/
inductive ParseError.Blamed (stream : TokenStream) : ParseError → Prop where
  | token {cause : Cause} (place : Nat) : cause.Concerns (stream.scannedAt place).token →
    Blamed stream
      ⟨cause, (stream.scannedAt place).token.position, (stream.scannedAt place).token.span⟩
  /-- The first fault of the lexer, with the span of the token before. -/
  | lexical {error : LexicalError} (place : Nat) :
    (stream.scannedAt place).fault = some error →
    (∀ earlier < place, (stream.scannedAt earlier).fault = none) →
    Blamed stream ⟨.lexical error, (stream.scannedAt place).token.position,
      (stream.scannedAt (place - 1)).token.span⟩

namespace Parser

variable {stream : TokenStream} {parser : Parser} {place : Nat}

/-- The tokens from the place on are still to be drawn. -/
def Draws (parser : Parser) (stream : TokenStream) (place : Nat) : Prop :=
  parser.stream = { stream with pending := stream.pending.drop place }

/-- What the lexer says of the token at the place, if it is at fault. -/
def faultAt (stream : TokenStream) (place : Nat) : Option (Position × LexicalError) :=
  (stream.scannedAt place).fault.map fun error =>
    ((stream.scannedAt place).token.position, error)

/-- Moving the window draws the next token. The fault that is found first is kept. -/
theorem Draws.shift (h : parser.Draws stream place) :
    parser.shift.Draws stream (place + 1) ∧ parser.shift.current = parser.peek ∧
      parser.shift.peek = (stream.scannedAt place).token ∧
      parser.shift.fault = parser.fault.or (faultAt stream place) := by
  have hnext : parser.stream.next =
      (stream.scannedAt place, { stream with pending := stream.pending.drop (place + 1) }) := by
    rw [h, TokenStream.next, TokenStream.scannedAt]
    dsimp only
    rw [← List.tail_drop, ← List.head?_drop]
    cases stream.pending.drop place <;> rfl
  unfold Parser.shift draw
  dsimp only
  rw [hnext, faultAt]
  dsimp only
  cases (stream.scannedAt place).fault with
  | none => exact ⟨rfl, rfl, rfl, by rw [Option.map_none, Option.or_none]⟩
  | some error =>
    refine ⟨rfl, rfl, rfl, ?_⟩
    cases parser.fault <;> rfl

/-- The window stands at the place, and nothing drawn so far was at fault. -/
structure StandsAt (parser : Parser) (stream : TokenStream) (place : Nat) : Prop where
  draws : parser.Draws stream (place + 2)
  current_eq : parser.current = (stream.scannedAt place).token
  peek_eq : parser.peek = (stream.scannedAt (place + 1)).token
  fault_eq : parser.fault = none
  clean : ∀ earlier < place + 2, (stream.scannedAt earlier).fault = none

theorem StandsAt.congr {other : Parser} (h : parser.StandsAt stream place)
    (hstream : other.stream = parser.stream) (hcurrent : other.current = parser.current)
    (hpeek : other.peek = parser.peek) (hfault : other.fault = parser.fault) :
    other.StandsAt stream place where
  draws := hstream.trans h.draws
  current_eq := hcurrent.trans h.current_eq
  peek_eq := hpeek.trans h.peek_eq
  fault_eq := hfault.trans h.fault_eq
  clean := h.clean

end Parser

namespace Parse

/-- Either the parser stands in the stream behind a value, or the error is blamed on its tokens. -/
inductive Lands (stream : TokenStream) {α : Type} : Except ParseError α × Parser → Prop where
  | ok {value : α} {after : Parser} (place : Nat) : after.StandsAt stream place →
    Lands stream (.ok value, after)
  | error {error : ParseError} {after : Parser} : error.Blamed stream →
    Lands stream (.error error, after)

/-- From a parser that stands in the stream, the step lands in one of the two ways. -/
def Blames (stream : TokenStream) (α : Type) (start : Parser → Prop) (step : Parse α) : Prop :=
  ∀ parser place, parser.StandsAt stream place → start parser → Lands stream (step parser)

namespace Blames

variable {stream : TokenStream} {α β : Type} {start : Parser → Prop} {step : Parse α}

theorem failAtCurrent {cause : ParseError.Cause}
    (h : ∀ parser, start parser → cause.Concerns parser.current) :
    Blames stream α start (failAtCurrent cause) := by
  intro parser place hat hstart
  have hcause := h parser hstart
  refine .error ?_
  rw [hat.current_eq] at hcause ⊢
  exact .token place hcause

theorem tooDeep : Blames stream α start fun parser =>
    Parse.failAtCurrent (.nestingTooDeep parser.maxDepth) parser := by
  intro parser place hat _
  refine .error ?_
  rw [hat.current_eq]
  exact .token place trivial

/-- Moving on stops at a token that is at fault, with the token before it as the current one. -/
theorem advance : Blames stream Unit start advance := by
  intro parser place hat _
  obtain ⟨hdraws, hcurrent, hpeek, hfault⟩ := hat.draws.shift
  rw [hat.fault_eq, Option.none_or, Parser.faultAt] at hfault
  rw [hat.peek_eq] at hcurrent
  unfold Parse.advance raiseFault
  cases hclean : (stream.scannedAt (place + 2)).fault with
  | none =>
    rw [hclean, Option.map_none] at hfault
    rw [hfault]
    refine .ok (place + 1) ⟨hdraws, hcurrent, hpeek, hfault, fun earlier hlt => ?_⟩
    rcases Nat.lt_succ_iff_lt_or_eq.mp hlt with hlt | rfl
    · exact hat.clean earlier hlt
    · exact hclean
  | some found =>
    rw [hclean, Option.map_some] at hfault
    rw [hfault]
    refine .error ?_
    rw [hcurrent]
    exact .lexical (place + 2) hclean hat.clean

theorem expectPeek (kind : Token.Kind) : Blames stream Unit start (expectPeek kind) := by
  intro parser place hat hstart
  unfold Parse.expectPeek
  split
  · exact advance parser place hat hstart
  next hkind =>
    refine .error ?_
    rw [hat.peek_eq] at hkind ⊢
    exact .token (place + 1) ⟨rfl, fun he => hkind (beq_iff_eq.mpr he)⟩

theorem expectCurrent (kind : Token.Kind) : Blames stream Unit start (expectCurrent kind) := by
  intro parser place hat hstart
  unfold Parse.expectCurrent
  split
  · exact .ok place hat
  next hkind =>
    refine .error ?_
    rw [hat.current_eq] at hkind ⊢
    exact .token place ⟨rfl, fun he => hkind (beq_iff_eq.mpr he)⟩

theorem bind {next : α → Parse β} (h : Blames stream α start step)
    (hnext : ∀ value, Blames stream β (Reached start step value) (next value)) :
    Blames stream β start (step >>= next) := by
  intro parser place hat hstart
  have hfirst := h parser place hat hstart
  generalize hr : step parser = result at hfirst
  cases hfirst with
  | @ok value between later hlater =>
    rw [Attempt.bind_of_ok hr]
    exact hnext value between later hlater ⟨parser, hstart, hr⟩
  | error herror =>
    rw [Attempt.bind_of_error hr]
    exact .error herror

theorem rule (name : String) (h : Blames stream α (fun _ => True) step) :
    Blames stream α start (rule name step) := by
  intro parser place hat _
  unfold Parse.rule
  split
  · dsimp only
    generalize hentered : { parser.trace (name ++ " (") with
      indent := (parser.trace (name ++ " (")).indent + 1 } = entered
    have hinner : entered.StandsAt stream place := by
      rw [← hentered]
      exact hat.congr rfl rfl rfl rfl
    have hbody := h entered place hinner trivial
    generalize step entered = result at hbody
    cases hbody with
    | ok later hlater => exact .ok later (hlater.congr rfl rfl rfl rfl)
    | error herror => exact .error herror
  · exact h parser place hat trivial

theorem nested (h : Blames stream α (fun _ => True) step) :
    Blames stream α start (nested step) := by
  intro parser place hat _
  unfold Parse.nested
  split
  · exact tooDeep parser place hat ‹_›
  · have hbody := h { parser with depth := parser.depth + 1 } place (hat.congr rfl rfl rfl rfl)
      trivial
    generalize step { parser with depth := parser.depth + 1 } = result at hbody
    cases hbody with
    | ok later hlater => exact .ok later (hlater.congr rfl rfl rfl rfl)
    | error herror => exact .error herror

end Blames

/-- Every rule of the grammar blames its errors on tokens. -/
theorem upheld_blames (stream : TokenStream) : Upheld (Blames stream) where
  weaken := fun himp h parser place hat hstart => h parser place hat (himp parser hstart)
  bind := Blames.bind
  look := by
    intro α start step h parser place hat _
    obtain ⟨value, journal, hr⟩ := h parser
    rw [hr]
    exact .ok place (hat.congr rfl rfl rfl rfl)
  failAtCurrent := Blames.failAtCurrent
  tooDeep := Blames.tooDeep
  raiseFault := by
    intro start parser place hat _
    unfold Parse.raiseFault
    rw [hat.fault_eq]
    exact .ok place hat
  advance := Blames.advance
  expectPeek := Blames.expectPeek
  expectCurrent := Blames.expectCurrent
  rule := Blames.rule
  nested := Blames.nested

end Parse

/-! ### Whole sources -/

/-- What a parser finds at fault in its first two tokens is the first of them that is. -/
theorem Parser.fault_ofStream (stream : TokenStream) (maxDepth : Nat) (journal : Journal) :
    (ofStream stream maxDepth journal).Draws stream 2 ∧
      (ofStream stream maxDepth journal).current = (stream.scannedAt 0).token ∧
      (ofStream stream maxDepth journal).peek = (stream.scannedAt 1).token ∧
      (ofStream stream maxDepth journal).fault = (faultAt stream 0).or (faultAt stream 1) := by
  unfold ofStream
  generalize hfresh : (Parser.mk stream stream.endMark stream.endMark none 0 maxDepth 0 0 journal)
    = fresh
  have hdraws : fresh.Draws stream 0 := by
    rw [← hfresh]
    rfl
  have hfault : fresh.fault = none := by rw [← hfresh]
  obtain ⟨hfirst, -, hpeek, hone⟩ := hdraws.shift
  obtain ⟨hsecond, hcurrent, hlast, htwo⟩ := hfirst.shift
  rw [hone, hfault, Option.none_or] at htwo
  exact ⟨hsecond, hcurrent.trans hpeek, hlast, htwo⟩

/-- A parser that finds nothing at fault in its first two tokens stands at the first one. -/
theorem Parser.standsAt_ofStream {stream : TokenStream} {maxDepth : Nat} {journal : Journal}
    (h : (ofStream stream maxDepth journal).fault = none) :
    (ofStream stream maxDepth journal).StandsAt stream 0 := by
  obtain ⟨hdraws, hcurrent, hpeek, hfault⟩ := fault_ofStream stream maxDepth journal
  refine ⟨hdraws, hcurrent, hpeek, h, fun earlier hlt => ?_⟩
  rw [h, eq_comm, Option.or_eq_none_iff, faultAt, faultAt, Option.map_eq_none_iff,
    Option.map_eq_none_iff] at hfault
  rcases Nat.lt_succ_iff_lt_or_eq.mp hlt with hlt | rfl
  · rw [Nat.lt_one_iff.mp hlt]
    exact hfault.1
  · exact hfault.2

/-- What is said of the place of an error, in a source that is not parsed. -/
theorem Program.blamed_of_parse {source : String} {maxDepth : Nat} {journal : Journal}
    {error : ParseError} (h : (parse source maxDepth journal).1 = .error error) :
    error.Blamed (TokenStream.ofString source) := by
  unfold parse Parser.ofString at h
  generalize TokenStream.ofString source = stream at h ⊢
  have hstands := @Parser.standsAt_ofStream stream maxDepth journal
  obtain ⟨-, hcurrent, -, hfault⟩ := Parser.fault_ofStream stream maxDepth journal
  generalize Parser.ofStream stream maxDepth journal = parser at h hstands hcurrent hfault
  -- A fault in the first two tokens is raised before anything is read.
  have hfails : ∀ found, parser.fault = some found →
      error = ⟨.lexical found.2, found.1, parser.current.span⟩ := by
    intro found hfound
    have hraise : Parse.raiseFault parser =
        (.error ⟨.lexical found.2, found.1, parser.current.span⟩,
          { parser with fault := none }) := by
      rw [Parse.raiseFault, hfound]
    rw [Parser.parseProgram, Attempt.bind_of_error hraise] at h
    exact (Except.error.inj h).symm
  cases hzero : (stream.scannedAt 0).fault with
  | some first =>
    rw [Parser.faultAt, hzero, Option.map_some, Option.some_or] at hfault
    rw [hfails _ hfault, hcurrent]
    exact .lexical 0 hzero fun earlier hlt => absurd hlt (Nat.not_lt_zero _)
  | none =>
    rw [Parser.faultAt, hzero, Option.map_none, Option.none_or, Parser.faultAt] at hfault
    have hclean : ∀ earlier < 1, (stream.scannedAt earlier).fault = none := by
      intro earlier hlt
      rwa [Nat.lt_one_iff.mp hlt]
    cases hone : (stream.scannedAt 1).fault with
    | some second =>
      rw [hone, Option.map_some] at hfault
      rw [hfails _ hfault, hcurrent]
      exact .lexical 1 hone hclean
    | none =>
      rw [hone, Option.map_none] at hfault
      have hat : parser.StandsAt stream 0 := hstands hfault
      have hrules : Blames stream Program (fun _ => True) Parser.parseProgram :=
        Parser.upheld_parseProgram (upheld_blames stream)
      have hlands := hrules parser 0 hat trivial
      generalize Parser.parseProgram parser = result at h hlands
      cases hlands with
      | ok => cases h
      | error hblamed =>
        cases h
        exact hblamed

/-- The position is the one behind the first bytes of the source, this number of them. -/
def Position.Marks (position : Position) (source : String) (offset : Nat) : Prop :=
  ∃ front back, source.toList = front ++ back ∧ position = .behind front ∧
    offset = byteLength front

namespace TokenStream

/-- The position of every token is that of the first byte of its span. -/
theorem marks_scannedAt {source : String} (hsize : source.utf8ByteSize < UInt32.size)
    (place : Nat) :
    ((ofString source).scannedAt place).token.position.Marks source
      ((ofString source).scannedAt place).token.span.start := by
  obtain ⟨htiles, hend⟩ := tiles_ofString hsize
  unfold scannedAt
  cases hplace : (ofString source).pending[place]? with
  | none =>
    rw [Option.getD_none, hend]
    exact ⟨source.toList, [], (List.append_nil _).symm, rfl, rfl⟩
  | some scanned =>
    obtain ⟨front, text, back, hsource, -, -, hplaced⟩ :=
      htiles.exists_placed (List.mem_map_of_mem (List.mem_of_getElem? hplace))
    rw [List.nil_append] at hsource
    exact ⟨front, text ++ back, hsource, hplaced.position_eq, by
      rw [Option.getD_some, hplaced.span_eq]⟩

/-- A token that is rejected starts behind the end of the token before it. -/
theorem stop_le_of_fault {source : String} (hsize : source.utf8ByteSize < UInt32.size) {place : Nat}
    {error : LexicalError}
    (h : ((ofString source).scannedAt (place + 1)).fault = some error) :
    ((ofString source).scannedAt place).token.span.stop ≤
      ((ofString source).scannedAt (place + 1)).token.span.start := by
  obtain ⟨htiles, -⟩ := tiles_ofString hsize
  have hlt : place + 1 < (ofString source).pending.length := by
    refine Nat.lt_of_not_ge fun hle => ?_
    rw [scannedAt, List.getElem?_eq_none hle] at h
    cases h
  have hordered := List.pairwise_iff_getElem.mp htiles.pairwise place (place + 1)
    (by rw [List.length_map]; exact Nat.lt_of_succ_lt hlt)
    (by rwa [List.length_map]) (Nat.lt_succ_self place)
  rw [List.getElem_map, List.getElem_map] at hordered
  rwa [scannedAt, scannedAt, List.getElem?_eq_getElem hlt,
    List.getElem?_eq_getElem (Nat.lt_of_succ_lt hlt)]

end TokenStream

namespace Program

variable {source : String} {maxDepth : Nat} {journal : Journal} {error : ParseError}

/-- Position and span name the same place in every error that a reading rule raises. -/
theorem marks_of_parse (hsize : source.utf8ByteSize < UInt32.size)
    (h : (parse source maxDepth journal).1 = .error error)
    (hrule : ∀ fault, error.cause ≠ .lexical fault) :
    error.position.Marks source error.span.start := by
  cases blamed_of_parse h with
  | token place => exact TokenStream.marks_scannedAt hsize place
  | lexical => exact absurd rfl (hrule _)

/-- A fault of the lexer has the position of the token that was rejected. Its span is that of the
token before, which ends before the rejected one starts, unless the rejected one is the first. -/
theorem early_of_parse {fault : LexicalError}
    (h : (parse source maxDepth journal).1 = .error error) (hc : error.cause = .lexical fault) :
    ∃ place, ((TokenStream.ofString source).scannedAt place).fault = some fault ∧
      error.position = ((TokenStream.ofString source).scannedAt place).token.position ∧
      error.span = ((TokenStream.ofString source).scannedAt (place - 1)).token.span ∧
      (source.utf8ByteSize < UInt32.size → 0 < place → error.span.stop ≤
        ((TokenStream.ofString source).scannedAt place).token.span.start) := by
  cases blamed_of_parse h with
  | token place hconcerns =>
    cases hc
    exact hconcerns.elim
  | lexical place hfault =>
    cases hc
    refine ⟨place, hfault, rfl, rfl, fun hsize hpos => ?_⟩
    obtain ⟨before, rfl⟩ := Nat.exists_eq_add_one_of_ne_zero (Nat.ne_of_gt hpos)
    exact TokenStream.stop_le_of_fault hsize hfault

end Program

/-- Where the error of a parse lies in the source. Spans say so in a source shorter than 4 GiB. -/
structure ParseError.Located (source : String) (error : ParseError) : Prop where
  /-- What a reading rule raises has position and span of the token that it is about. -/
  rule : (∀ fault, error.cause ≠ .lexical fault) →
    (source.utf8ByteSize < UInt32.size → error.position.Marks source error.span.start) ∧ ∃ place,
      error.cause.Concerns ((TokenStream.ofString source).scannedAt place).token ∧
      error.position = ((TokenStream.ofString source).scannedAt place).token.position ∧
      error.span = ((TokenStream.ofString source).scannedAt place).token.span
  /-- What the lexer rejects gives the position, and the token before it the span. -/
  lexical : ∀ fault, error.cause = .lexical fault →
    ∃ place, ((TokenStream.ofString source).scannedAt place).fault = some fault ∧
      error.position = ((TokenStream.ofString source).scannedAt place).token.position ∧
      error.span = ((TokenStream.ofString source).scannedAt (place - 1)).token.span ∧
      (source.utf8ByteSize < UInt32.size → 0 < place → error.span.stop ≤
        ((TokenStream.ofString source).scannedAt place).token.span.start)

namespace Program

end Program

end Simian
