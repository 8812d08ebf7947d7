import Simian.Proofs.ParserClock
import Simian.Proofs.Scanning

/-!
# What the steps of a parse spend

No rule moves on from the end mark, so every move takes one of the tokens that are left. A step
spends them and leaves the counters of the parser as they were, whether it succeeds or fails
(`Parser.Spent`). A timed step ends as the step of the parser does if the clock lasts long enough
(`Timed.Ends`), which carries over from the moves to steps in a row, to rounds of a loop and to
nested rules.
-/
namespace Simian

/-! ### The tokens that are left -/

namespace Parser

/-- The tokens in the window and behind it. -/
def ahead (parser : Parser) : List Token :=
  parser.current :: parser.peek :: parser.stream.pending.map (·.token)

/-- The number of tokens left, the current one included and the end mark not. -/
def remaining (parser : Parser) : Nat := parser.ahead.countP (·.kind != .eof)

/-- The current token is not the end mark. -/
def InText (parser : Parser) : Prop := parser.current.kind ≠ .eof

/-- Nothing but the end mark comes behind the end mark. -/
structure Regular (parser : Parser) : Prop where
  stream : parser.stream.Regular
  peek : parser.peek.kind = .eof → parser.stream.pending = []
  current : parser.current.kind = .eof → parser.peek.kind = .eof

variable {before between after parser : Parser}

theorem InText.of_eq (h : parser.InText) (heq : after.current = parser.current) : after.InText := by
  unfold InText
  rw [heq]
  exact h

theorem InText.of_kind {kind : Token.Kind} (h : parser.current.kind = kind)
    (hkind : (kind != .eof) = true) : parser.InText := by
  unfold InText
  rw [h]
  exact bne_iff_ne.mp hkind

theorem InText.of_peek {kind : Token.Kind} (h : (parser.peek.kind == kind) = true)
    (heq : after.current = parser.peek) (hkind : (kind != .eof) = true) : after.InText :=
  .of_kind ((congrArg Token.kind heq).trans (beq_iff_eq.mp h)) hkind

theorem InText.remaining_pos (h : parser.InText) : 0 < parser.remaining :=
  List.countP_pos_iff.mpr ⟨parser.current, List.mem_cons_self, bne_iff_ne.mpr h⟩

theorem Regular.inText (h : parser.Regular) (hpeek : parser.peek.kind ≠ .eof) : parser.InText :=
  fun heof => hpeek (h.current heof)

/-- A token is drawn into the window, and else only what is noted of faults changes. -/
theorem shift_eq (parser : Parser) : ∃ fault journal, parser.shift =
    { parser with
      stream := parser.stream.next.2, current := parser.peek, peek := parser.stream.next.1.token,
      fault, journal, drawn := parser.drawn + 1 } := by
  unfold shift draw
  dsimp only
  split
  · exact ⟨_, _, rfl⟩
  · exact ⟨_, _, rfl⟩

theorem advance_snd (parser : Parser) : ∃ fault journal, (Parse.advance parser).2 =
    { parser with
      stream := parser.stream.next.2, current := parser.peek, peek := parser.stream.next.1.token,
      fault, journal, drawn := parser.drawn + 1 } := by
  obtain ⟨fault, journal, hshift⟩ := parser.shift_eq
  unfold Parse.advance Parse.raiseFault
  rw [hshift]
  dsimp only
  split
  · exact ⟨_, _, rfl⟩
  · exact ⟨_, _, rfl⟩

theorem Regular.advance (h : parser.Regular) : (Parse.advance parser).2.Regular := by
  obtain ⟨fault, journal, hafter⟩ := parser.advance_snd
  rw [hafter]
  have hend := h.stream.endMark
  have hproper := h.stream.proper
  have hpeek := h.peek
  unfold TokenStream.next
  cases hpending : parser.stream.pending with
  | nil => exact ⟨h.stream, fun _ => hpending, fun _ => hend⟩
  | cons scanned rest =>
    rw [hpending] at hproper hpeek
    refine ⟨⟨fun other ho => hproper other (List.mem_cons_of_mem _ ho), hend⟩, fun heof => ?_,
      fun heof => ?_⟩
    · exact absurd heof (hproper scanned List.mem_cons_self).2
    · exact absurd (hpeek heof) (List.cons_ne_nil _ _)

/-- A move from a token of the text takes it. -/
theorem remaining_advance (h : parser.Regular) (hin : parser.InText) :
    (Parse.advance parser).2.remaining + 1 = parser.remaining := by
  obtain ⟨fault, journal, hafter⟩ := parser.advance_snd
  have hmark : (parser.stream.endMark.kind != .eof) = false := by
    rw [h.stream.endMark]
    rfl
  have hcurrent : (parser.current.kind != .eof) = true := bne_iff_ne.mpr hin
  rw [hafter]
  unfold remaining ahead TokenStream.next
  cases hpending : parser.stream.pending with
  | nil =>
    simp only [hpending, List.map_nil, List.countP_cons, List.countP_nil, hmark, hcurrent]
    rfl
  | cons scanned rest =>
    simp only [List.map_cons, List.countP_cons, hcurrent]
    rfl

/-- What a step with these events has come to. -/
structure Spent (before : Parser) (events : List Timed.Event) (after : Parser) : Prop where
  regular : after.Regular
  depth_eq : after.depth = before.depth
  maxDepth_eq : after.maxDepth = before.maxDepth
  drawn_eq : after.drawn = before.drawn + events.count .advance
  remaining_eq : after.remaining + events.count .advance = before.remaining
  holds : ∀ rules, .hold rules ∈ events → rules ≤ before.maxDepth

namespace Spent

variable {events more : List Timed.Event}

theorem refl (h : parser.Regular) : parser.Spent [] parser :=
  ⟨h, rfl, rfl, rfl, rfl, fun _ hm => absurd hm List.not_mem_nil⟩

/-- Nothing is spent on a note in the journal or on a fault that is raised. -/
theorem noted (h : parser.Regular) (fault : Option (Position × LexicalError)) (journal : Journal) :
    parser.Spent [] { parser with fault, journal } :=
  ⟨⟨h.stream, h.peek, h.current⟩, rfl, rfl, rfl, rfl, fun _ hm => absurd hm List.not_mem_nil⟩

theorem trans (hf : before.Spent events between) (hs : between.Spent more after) :
    before.Spent (events ++ more) after := by
  have hdrawn := hf.drawn_eq
  have hremaining := hf.remaining_eq
  have hlater := hs.drawn_eq
  have hleft := hs.remaining_eq
  refine ⟨hs.regular, hs.depth_eq.trans hf.depth_eq, hs.maxDepth_eq.trans hf.maxDepth_eq, ?_, ?_,
    fun rules hm => ?_⟩
  · rw [List.count_append]
    omega
  · rw [List.count_append]
    omega
  · rcases List.mem_append.mp hm with hm | hm
    · exact hf.holds rules hm
    · exact hf.maxDepth_eq ▸ hs.holds rules hm

theorem advance (h : parser.Regular) (hin : parser.InText) :
    parser.Spent [.advance] (Parse.advance parser).2 := by
  have hremaining := remaining_advance h hin
  have hregular := h.advance
  obtain ⟨fault, journal, hafter⟩ := parser.advance_snd
  rw [hafter] at hremaining hregular ⊢
  refine ⟨hregular, rfl, rfl, rfl, hremaining, fun rules hm => ?_⟩
  cases List.mem_singleton.mp hm

/-- What is noted in the journal does not matter, neither before nor behind the step. -/
theorem traced {journal note : Journal} {indent margin : Nat}
    (h : Spent { before with journal, indent } events after) :
    before.Spent events { after with journal := note, indent := margin } :=
  ⟨⟨h.regular.stream, h.regular.peek, h.regular.current⟩, h.depth_eq, h.maxDepth_eq, h.drawn_eq,
    h.remaining_eq, h.holds⟩

/-- A step one level deeper, which is left again behind it. -/
theorem nested (h : Spent { before with depth := before.depth + 1 } events after)
    (hroom : before.depth < before.maxDepth) :
    before.Spent (.hold (before.depth + 1) :: events)
      { after with depth := after.depth - 1 } := by
  have hdepth : after.depth - 1 = before.depth := by
    rw [h.depth_eq]
    exact Nat.add_sub_cancel _ _
  have hcount : (Timed.Event.hold (before.depth + 1) :: events).count .advance =
      events.count .advance := List.count_cons_of_ne Timed.Event.noConfusion
  refine ⟨⟨h.regular.stream, h.regular.peek, h.regular.current⟩, hdepth, h.maxDepth_eq, ?_, ?_,
    fun rules hm => ?_⟩
  · rw [hcount]
    exact h.drawn_eq
  · rw [hcount]
    exact h.remaining_eq
  · rcases List.mem_cons.mp hm with heq | hm
    · cases heq
      exact hroom
    · exact h.holds rules hm

end Spent

/-- So many tokens are left at most, and so many nesting levels. -/
structure Within (budget levels : Nat) (parser : Parser) : Prop where
  regular : parser.Regular
  levels_le : parser.maxDepth ≤ parser.depth + levels
  remaining_le : parser.remaining ≤ budget

namespace Within

variable {budget rounds levels : Nat}

theorem mono (h : parser.Within rounds levels) (hle : rounds ≤ budget) :
    parser.Within budget levels :=
  ⟨h.regular, h.levels_le, Nat.le_trans h.remaining_le hle⟩

theorem spent {events : List Timed.Event} (h : before.Within budget levels)
    (hs : before.Spent events after) : after.Within budget levels := by
  have hlevels := h.levels_le
  have hremaining := h.remaining_le
  have hleft := hs.remaining_eq
  refine ⟨hs.regular, ?_, by omega⟩
  rw [hs.maxDepth_eq, hs.depth_eq]
  exact hlevels

/-- A step on takes one of the tokens that are left. -/
theorem less (h : before.Within (rounds + 1) levels) (ha : after.Within (rounds + 1) levels)
    (hless : after.remaining < before.remaining) : after.Within rounds levels := by
  have hremaining := h.remaining_le
  exact ⟨ha.regular, ha.levels_le, by omega⟩

/-- Where no token is left, the end mark is the current one. -/
theorem current_eof (h : parser.Within 0 levels) : parser.current.kind = .eof :=
  Decidable.byContradiction fun hin =>
    Nat.not_lt_of_le h.remaining_le (InText.remaining_pos hin)

theorem traced (h : parser.Within budget levels) (journal : Journal) (indent : Nat) :
    Within budget levels { parser with journal, indent } :=
  ⟨⟨h.regular.stream, h.regular.peek, h.regular.current⟩, h.levels_le, h.remaining_le⟩

theorem deeper (h : parser.Within budget (levels + 1)) :
    Within budget levels { parser with depth := parser.depth + 1 } := by
  have hlevels := h.levels_le
  refine ⟨⟨h.regular.stream, h.regular.peek, h.regular.current⟩, ?_, h.remaining_le⟩
  dsimp only
  omega

/-- The bounds that the parser sets for its loops and rules hold. -/
theorem of_regular (h : parser.Regular) : parser.Within parser.roundsLeft parser.levelsLeft := by
  refine ⟨h, ?_, ?_⟩
  · unfold levelsLeft
    omega
  · have hlength := List.countP_le_length (p := (·.kind != .eof)) (l := parser.ahead)
    unfold ahead at hlength
    rw [List.length_cons, List.length_cons, List.length_map] at hlength
    exact hlength

end Within

end Parser

/-! ### Steps that end -/

namespace Timed

variable {α β : Type} {parser : Parser}

/-- Given time enough, the timed step ends as the step does from this parser, and a value that it
gives is good. -/
structure Ends (timed : Nat → Timed α) (step : Parse α) (good : α → Parser → Prop)
    (parser : Parser) : Prop where
  ends : ∃ clock events,
    (∀ more, clock ≤ more → timed more parser.depth parser = some (step parser, events)) ∧
      parser.Spent events (step parser).2
  good : ∀ value, (step parser).1 = .ok value → good value (step parser).2

namespace Ends

variable {timed : Nat → Timed α} {other : Nat → α → Timed β} {step : Parse α} {next : α → Parse β}
  {good : α → Parser → Prop} {fine : β → Parser → Prop} {budget levels : Nat}

/-- A step in which no token is taken. -/
theorem still (h : parser.Spent [] (step parser).2)
    (hgood : ∀ value, (step parser).1 = .ok value → good value (step parser).2) :
    Ends (fun _ => ofParse step) step good parser :=
  ⟨⟨0, [], fun _ _ => rfl, h⟩, hgood⟩

theorem pure {value : α} (h : parser.Regular) (hgood : good value parser) :
    Ends (fun _ => Pure.pure value) (Pure.pure value) good parser := by
  refine ⟨⟨0, [], fun _ _ => rfl, .refl h⟩, fun other hv => ?_⟩
  cases hv
  exact hgood

theorem failAtCurrent {cause : ParseError.Cause} (h : parser.Regular) :
    Ends (fun _ => Timed.failAtCurrent cause) (Parse.failAtCurrent cause) good parser :=
  .still (.refl h) fun _ hv => nomatch hv

theorem expectCurrent {kind : Token.Kind} (h : parser.Regular) :
    Ends (fun _ => Timed.expectCurrent kind) (Parse.expectCurrent kind)
      (fun _ after => after.current.kind = kind) parser := by
  by_cases hkind : (parser.current.kind == kind) = true
  · have hstep : Parse.expectCurrent kind parser = (.ok (), parser) := if_pos hkind
    refine .still ?_ fun _ _ => ?_
    · rw [hstep]
      exact .refl h
    · rw [hstep]
      exact beq_iff_eq.mp hkind
  · have hstep : Parse.expectCurrent kind parser =
        Parse.failAtCurrent (.unexpectedToken kind parser.current.kind) parser := if_neg hkind
    refine .still ?_ fun _ hv => ?_
    · rw [hstep]
      exact .refl h
    · rw [hstep] at hv
      cases hv

theorem advance (h : parser.Regular) (hin : parser.InText) :
    Ends (fun _ => Timed.advance) Parse.advance
      (fun _ after => after.current = parser.peek ∧ after.remaining < parser.remaining) parser := by
  have hspent := Parser.Spent.advance h hin
  refine ⟨⟨0, _, fun _ _ => rfl, hspent⟩, fun _ _ => ⟨?_, ?_⟩⟩
  · obtain ⟨fault, journal, hafter⟩ := parser.advance_snd
    rw [hafter]
  · have hremaining := Parser.remaining_advance h hin
    omega

/-- A step on to a token of this kind, which is the one to come. -/
theorem advance_of_peek {kind : Token.Kind} (h : parser.Regular)
    (hpeek : (parser.peek.kind == kind) = true) (hkind : (kind != .eof) = true) :
    Ends (fun _ => Timed.advance) Parse.advance (fun _ after => after.current.kind = kind)
      parser := by
  have hkinds := beq_iff_eq.mp hpeek
  have hends := advance h (h.inText (by rw [hkinds]; exact bne_iff_ne.mp hkind))
  refine ⟨hends.ends, fun value hv => ?_⟩
  rw [(hends.good value hv).1]
  exact hkinds

theorem expectPeek (kind : Token.Kind) (h : parser.Regular) (hkind : (kind != .eof) = true) :
    Ends (fun _ => Timed.expectPeek kind) (Parse.expectPeek kind)
      (fun _ after => after.current.kind = kind) parser := by
  by_cases hpeek : (parser.peek.kind == kind) = true
  · have hstep : Parse.expectPeek kind parser = Parse.advance parser := if_pos hpeek
    obtain ⟨⟨clock, events, hends, hspent⟩, hgood⟩ := advance_of_peek h hpeek hkind
    constructor
    · rw [hstep]
      refine ⟨clock, events, fun more hmore => ?_, hspent⟩
      rw [Timed.expectPeek, if_pos hpeek]
      exact hends more hmore
    · rw [hstep]
      exact hgood
  · have hstep : Parse.expectPeek kind parser =
        Parse.failAt parser.peek (.unexpectedToken kind parser.peek.kind) parser := if_neg hpeek
    constructor
    · rw [hstep]
      refine ⟨0, [], fun _ _ => ?_, .refl h⟩
      rw [Timed.expectPeek, if_neg hpeek]
      rfl
    · rw [hstep]
      exact fun _ hv => nomatch hv

/-! ### Steps in a row -/

theorem of_eq {same : Parse α} (h : Ends timed same good parser)
    (heq : step parser = same parser) : Ends timed step good parser := by
  constructor
  · rw [heq]
    exact h.ends
  · rw [heq]
    exact h.good

/-- A look at the parser that the timed step does without. -/
theorem of_get {next : Parser → Parse α} (h : Ends timed (next parser) good parser) :
    Ends timed (Parse.get >>= next) good parser := .of_eq h rfl

/-- A step that takes a tick of the clock. -/
theorem tick (h : Ends (fun clock => timed (clock + 1)) step good parser) :
    Ends timed step good parser := by
  obtain ⟨clock, events, hends, hspent⟩ := h.ends
  refine ⟨⟨clock + 1, events, fun more hmore => ?_, hspent⟩, h.good⟩
  cases more with
  | zero => omega
  | succ rest => exact hends rest (by omega)

/-- A round of a loop that has gone round so often. -/
theorem round (loop : (clock rounds : Nat) → Timed α) {used : Nat}
    (h : Ends (fun clock => loop clock (clock - (used + 1) + 1)) step good parser) :
    Ends (fun clock => loop clock (clock - used)) step good parser := by
  obtain ⟨clock, events, hends, hspent⟩ := h.ends
  refine ⟨⟨max clock (used + 1), events, fun more hmore => ?_, hspent⟩, h.good⟩
  have hleft : more - used = more - (used + 1) + 1 := by omega
  exact (congrArg (fun rounds => loop more rounds parser.depth parser) hleft).trans
    (hends more (by omega))

theorem bind (hw : parser.Within budget levels) (hf : Ends timed step good parser)
    (hn : ∀ value between, between.Within budget levels → good value between →
      Ends (fun clock => other clock value) (next value) fine between) :
    Ends (fun clock => timed clock >>= other clock) (step >>= next) fine parser := by
  obtain ⟨clock, events, hends, hspent⟩ := hf.ends
  have hbetween := hw.spent hspent
  have hgood := hf.good
  cases hstep : step parser with
  | mk result between =>
    rw [hstep] at hends hspent hbetween hgood
    cases result with
    | error error =>
      have hall : (step >>= next) parser = (.error error, between) := Attempt.bind_of_error hstep
      constructor
      · rw [hall]
        refine ⟨clock, events, fun more hmore => ?_, hspent⟩
        change Timed.bind (timed more) (other more) parser.depth parser = _
        rw [Timed.bind, hends more hmore]
      · rw [hall]
        exact fun _ hv => nomatch hv
    | ok value =>
      have hall : (step >>= next) parser = next value between := Attempt.bind_of_ok hstep
      have hrest := hn value between hbetween (hgood value rfl)
      obtain ⟨later, notes, hlater, hspends⟩ := hrest.ends
      constructor
      · rw [hall]
        refine ⟨max clock later, events ++ notes, fun more hmore => ?_, hspent.trans hspends⟩
        change Timed.bind (timed more) (other more) parser.depth parser = _
        rw [Timed.bind, hends more (by omega)]
        dsimp only
        rw [← hspent.depth_eq, hlater more (by omega)]
      · rw [hall]
        exact hrest.good

/-- A look at the window. -/
theorem seeing {look : Parse α} {seen : α} (hlook : look parser = (.ok seen, parser))
    (hn : Ends (fun clock => other clock seen) (next seen) fine parser) :
    Ends (fun clock => ofParse look >>= other clock) (look >>= next) fine parser := by
  have hall : (look >>= next) parser = next seen parser := Attempt.bind_of_ok hlook
  obtain ⟨clock, events, hends, hspent⟩ := hn.ends
  constructor
  · rw [hall]
    refine ⟨clock, events, fun more hmore => ?_, hspent⟩
    change Timed.bind (ofParse look) (other more) parser.depth parser = _
    rw [Timed.bind, ofParse, hlook]
    dsimp only
    rw [hends more hmore]
    rfl
  · rw [hall]
    exact hn.good

theorem get {other : Nat → Parser → Timed β} {next : Parser → Parse β}
    (hn : Ends (fun clock => other clock parser) (next parser) fine parser) :
    Ends (fun clock => Timed.get >>= other clock) (Parse.get >>= next) fine parser :=
  seeing rfl hn

theorem current {other : Nat → Token → Timed β} {next : Token → Parse β}
    (hn : Ends (fun clock => other clock parser.current) (next parser.current) fine parser) :
    Ends (fun clock => Timed.current >>= other clock) (Parse.current >>= next) fine parser :=
  seeing rfl hn

theorem currentIs {kind : Token.Kind} {other : Nat → Bool → Timed β} {next : Bool → Parse β}
    (hn : Ends (fun clock => other clock (parser.current.kind == kind))
      (next (parser.current.kind == kind)) fine parser) :
    Ends (fun clock => Timed.currentIs kind >>= other clock) (Parse.currentIs kind >>= next) fine
      parser :=
  seeing rfl hn

theorem peekIs {kind : Token.Kind} {other : Nat → Bool → Timed β} {next : Bool → Parse β}
    (hn : Ends (fun clock => other clock (parser.peek.kind == kind))
      (next (parser.peek.kind == kind)) fine parser) :
    Ends (fun clock => Timed.peekIs kind >>= other clock) (Parse.peekIs kind >>= next) fine
      parser :=
  seeing rfl hn

theorem ite {condition : Prop} [Decidable condition] {timed second : Nat → Timed α}
    {step another : Parse α} (hf : condition → Ends timed step good parser)
    (hs : ¬condition → Ends second another good parser) :
    Ends (fun clock => if condition then timed clock else second clock)
      (if condition then step else another) good parser := by
  split
  next hc => exact hf hc
  next hc => exact hs hc

/-- A step on from a token of the text, behind which a token less is left. -/
theorem onward {rounds : Nat} {rest : Nat → Timed β} {more : Parse β}
    (hw : parser.Within (rounds + 1) levels) (hin : parser.InText)
    (hrest : ∀ after : Parser, after.Within rounds levels → after.current = parser.peek →
      Ends rest more fine after) :
    Ends (fun clock => Timed.advance >>= fun _ => rest clock) (Parse.advance >>= fun _ => more) fine
      parser :=
  .bind hw (.advance hw.regular hin) fun _ after ha hmoved =>
    hrest after (hw.less ha hmoved.2) hmoved.1

/-- No step brings back what is spent. -/
theorem within (hw : parser.Within budget levels) (h : Ends timed step good parser) :
    Ends timed step (fun value after => good value after ∧ after.Within budget levels) parser := by
  refine ⟨h.ends, fun value hv => ⟨h.good value hv, ?_⟩⟩
  obtain ⟨_, _, _, hspent⟩ := h.ends
  exact hw.spent hspent

/-- A rule may start with anything noted in the journal. -/
theorem rule (name : String) (hw : parser.Within budget levels)
    (hbody : ∀ entered : Parser, entered.Within budget levels → entered.current = parser.current →
      Ends timed step (fun _ after => after.InText) entered) :
    Ends (fun clock => Timed.rule name (timed clock)) (Parse.rule name step)
      (fun _ after => after.InText) parser := by
  by_cases htrace : parser.journal.admits .trace = true
  · have hbody := hbody _
      (hw.traced (parser.trace (name ++ " (")).journal (parser.indent + 1)) rfl
    have hrule : Parse.rule name step parser = _ := if_pos htrace
    obtain ⟨clock, events, hends, hspent⟩ := hbody.ends
    constructor
    · rw [hrule]
      refine ⟨clock, events, fun more hmore => ?_, hspent.traced⟩
      have htimed : Timed.rule name (timed more) parser.depth parser = _ := if_pos htrace
      rw [htimed]
      exact congrArg (Option.map _) (hends more hmore)
    · rw [hrule]
      exact hbody.good
  · have hbody := hbody _ (hw.traced parser.journal parser.indent) rfl
    have hrule : Parse.rule name step parser = step parser := if_neg htrace
    obtain ⟨clock, events, hends, hspent⟩ := hbody.ends
    constructor
    · rw [hrule]
      refine ⟨clock, events, fun more hmore => ?_, hspent⟩
      rw [Timed.rule, if_neg htrace]
      exact hends more hmore
    · rw [hrule]
      exact hbody.good

/-- No rule is gone into at the limit. -/
theorem tooDeep (h : parser.Regular) (hfull : parser.maxDepth ≤ parser.depth) :
    Ends (fun clock => Timed.nested (timed clock))
      (fun parser => Parse.failAtCurrent (.nestingTooDeep parser.maxDepth) parser) good parser := by
  refine ⟨⟨0, [], fun _ _ => ?_, .refl h⟩, fun _ hv => nomatch hv⟩
  rw [Timed.nested, if_pos hfull]
  rfl

/-- One level deeper there is one level less, unless the limit is met. -/
theorem nested (hw : parser.Within budget (levels + 1))
    (hbody : ∀ entered : Parser, entered.Within budget levels →
      Ends timed step (fun _ after => after.InText) entered) :
    Ends (fun clock => Timed.nested (timed clock)) (Parse.nested step)
      (fun _ after => after.InText) parser := by
  by_cases hfull : parser.maxDepth ≤ parser.depth
  · exact .of_eq (tooDeep hw.regular hfull) (if_pos hfull)
  · have hbody := hbody _ hw.deeper
    have hnested : Parse.nested step parser = _ := if_neg hfull
    obtain ⟨clock, events, hends, hspent⟩ := hbody.ends
    constructor
    · rw [hnested]
      refine ⟨clock, _, fun more hmore => ?_, hspent.nested (Nat.lt_of_not_le hfull)⟩
      have htimed : Timed.nested (timed more) parser.depth parser = _ := if_neg hfull
      rw [htimed]
      exact congrArg (Option.map _) (hends more hmore)
    · rw [hnested]
      exact hbody.good

end Ends

end Timed

end Simian
