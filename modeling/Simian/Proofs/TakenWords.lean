import Mathlib.Data.Stream.Init
import Simian.Proofs.ParsedTrees
import Simian.Proofs.Scanning

/-!
# The words that a rule takes

A parser sees an endless sequence of words: the current one, the one to come, those still in
the stream, and then the end mark again and again. A rule that succeeds leaves some of these
behind and stands on the next one (`Parser.Moves`), and whatever it drew from the stream on
the way was free of faults. `Parse.Takes` describes a rule by what it gives and by the words it
leaves behind, for any words that it may find.
-/
namespace Simian

open Word

/-! ### The words in sight -/

namespace Parser

/-- The current word and all that follow it. -/
def words (parser : Parser) : Stream' Word :=
  (parser.current.word :: parser.peek.word :: parser.stream.pending.map (·.token.word)) ++ₛ
    Stream'.const parser.stream.endMark.word

/-- One parser is reached from the other by passing these words. No token that was drawn has a
fault. -/
structure Moves (before : Parser) (passed : List Word) (after : Parser) : Prop where
  words_eq : before.words = passed ++ₛ after.words
  drawn : ∃ drawn, before.stream.pending = drawn ++ after.stream.pending ∧
    ∀ scanned ∈ drawn, scanned.fault = none

variable {before between after : Parser} {passed more : List Word}

theorem Moves.refl (parser : Parser) : parser.Moves [] parser :=
  ⟨(Stream'.nil_append_stream _).symm, [], rfl, List.forall_mem_nil _⟩

theorem Moves.trans (h : before.Moves passed between) (hmore : between.Moves more after) :
    before.Moves (passed ++ more) after := by
  obtain ⟨drawn, hdrawn, hclean⟩ := h.drawn
  obtain ⟨later, hlater, hclear⟩ := hmore.drawn
  constructor
  · rw [h.words_eq, hmore.words_eq, Stream'.append_append_stream]
  · exact ⟨drawn ++ later, by rw [hdrawn, hlater, List.append_assoc],
      List.forall_mem_append.mpr ⟨hclean, hclear⟩⟩

/-- The window moves on by one word. -/
theorem words_shift (parser : Parser) :
    parser.words = [parser.current.word] ++ₛ parser.shift.words := by
  obtain ⟨⟨pending, endMark⟩, current, peek, fault, depth, maxDepth, indent, drawn, journal⟩ :=
    parser
  cases pending with
  | nil => exact congrArg (fun rest => [current.word, peek.word] ++ₛ rest) (Stream'.const_eq _)
  | cons scanned rest =>
    unfold shift draw TokenStream.next
    dsimp only
    split <;> rfl

theorem tail_words (parser : Parser) : parser.words.tail = parser.shift.words :=
  congrArg Stream'.tail parser.words_shift

theorem stream_shift (parser : Parser) :
    parser.shift.stream = { parser.stream with pending := parser.stream.pending.tail } := by
  obtain ⟨⟨pending, endMark⟩, current, peek, fault, depth, maxDepth, indent, drawn, journal⟩ :=
    parser
  cases pending with
  | nil => rfl
  | cons scanned rest =>
    unfold shift draw TokenStream.next
    dsimp only
    split <;> rfl

/-- A fault stays with the parser until it is raised. -/
theorem fault_of_shift {parser : Parser} (h : parser.shift.fault = none) : parser.fault = none := by
  unfold shift draw at h
  dsimp only at h
  split at h
  · exact h
  · cases h

/-- A token that is drawn with a fault leaves the fault with the parser. -/
theorem moves_shift {parser : Parser} (h : parser.shift.fault = none) :
    parser.Moves [parser.current.word] parser.shift := by
  constructor
  · exact parser.words_shift
  · obtain ⟨⟨pending, endMark⟩, current, peek, fault, depth, maxDepth, indent, drawn, journal⟩ :=
      parser
    cases pending with
    | nil => exact ⟨[], rfl, List.forall_mem_nil _⟩
    | cons scanned rest =>
      unfold shift draw TokenStream.next at h ⊢
      dsimp only at h ⊢
      split at h
      next hnone => exact ⟨[scanned], rfl, List.forall_mem_singleton.mpr hnone⟩
      next => cases h

end Parser

/-! ### Rules by what they take -/

namespace Parse

/-- The words are spelt as their kinds are, and from the place on they are nothing but the
end. -/
structure Sight (budget : Nat) (words : Stream' Word) : Prop where
  spelt : ∀ place, (words.get place).Spelt
  ends : ∀ place, budget ≤ place → (words.get place).kind = .eof

variable {α β : Type} {budget : Nat} {words rest : Stream' Word}

/-- What is still in sight after some words have been passed. -/
theorem Sight.passed {passed : List Word} (h : Sight budget (passed ++ₛ rest)) :
    Sight budget rest := by
  have hget : ∀ place, rest.get place = (passed ++ₛ rest).get (passed.length + place) := by
    intro place
    exact (Stream'.get_append_right place passed rest).symm
  constructor
  · intro place
    rw [hget]
    exact h.spelt _
  · intro place hplace
    rw [hget]
    exact h.ends _ (Nat.le_add_left_of_le hplace)

/-- With these words in sight the rule passes some of them, if it gives a value, and the value,
the words passed and those still in sight are as described. -/
def Takes (step : Parse α) (budget : Nat) (words : Stream' Word)
    (post : α → List Word → Stream' Word → Prop) : Prop :=
  Sight budget words → ∀ parser value after, parser.words = words →
    step parser = (.ok value, after) →
      ∃ passed, parser.Moves passed after ∧ post value passed after.words

variable {step : Parse α} {post : α → List Word → Stream' Word → Prop}

theorem takes_pure {value : α} (h : post value [] words) :
    Takes (pure value) budget words post := by
  intro _ parser result after hwords hr
  obtain ⟨rfl, rfl⟩ := Attempt.pure_eq_ok hr
  exact ⟨[], .refl parser, by rwa [hwords]⟩

theorem takes_pure_bind {value : α} {next : α → Parse β}
    {later : β → List Word → Stream' Word → Prop} (h : (next value).Takes budget words later) :
    Takes (pure value >>= next) budget words later := h

theorem Takes.bind {next : α → Parse β} {later : β → List Word → Stream' Word → Prop}
    (h : step.Takes budget words post)
    (hnext : ∀ value passed rest, post value passed rest → (next value).Takes budget rest
      fun result more last => later result (passed ++ more) last) :
    Takes (step >>= next) budget words later := by
  intro hsight parser result after hwords hr
  obtain ⟨value, between, hstep, hlast⟩ := Attempt.bind_eq_ok hr
  obtain ⟨passed, hmoves, hpost⟩ := h hsight parser value between hwords hstep
  rw [← hwords, hmoves.words_eq] at hsight
  obtain ⟨more, hmore, hlater⟩ :=
    hnext value passed between.words hpost hsight.passed between result after rfl hlast
  exact ⟨passed ++ more, hmoves.trans hmore, hlater⟩

theorem Takes.mono {also : α → List Word → Stream' Word → Prop}
    (h : step.Takes budget words post)
    (hpost : ∀ value passed rest, post value passed rest → also value passed rest) :
    step.Takes budget words also := by
  intro hsight parser value after hwords hr
  obtain ⟨passed, hmoves, hvalue⟩ := h hsight parser value after hwords hr
  exact ⟨passed, hmoves, hpost value passed after.words hvalue⟩

/-- What is passed and what stays in sight make up what was in sight. -/
theorem Takes.tracked (h : step.Takes budget words post) :
    step.Takes budget words fun value passed rest =>
      words = passed ++ₛ rest ∧ post value passed rest := by
  intro hsight parser value after hwords hr
  obtain ⟨passed, hmoves, hvalue⟩ := h hsight parser value after hwords hr
  exact ⟨passed, hmoves, hwords.symm.trans hmoves.words_eq, hvalue⟩

/-- What a rule ensures of its value may be added to what it takes. -/
theorem Takes.ensuring {holds : α → Prop} (h : step.Takes budget words post)
    (hvalue : step.Ensures holds) :
    step.Takes budget words fun value passed rest => holds value ∧ post value passed rest := by
  intro hsight parser value after hwords hr
  obtain ⟨passed, hmoves, hpost⟩ := h hsight parser value after hwords hr
  exact ⟨passed, hmoves, hvalue parser value (by rw [hr]), hpost⟩

theorem takes_failAtCurrent (cause : ParseError.Cause) :
    Takes (failAtCurrent cause) budget words post := by
  intro _ parser value after _ h
  cases h

/-- What is in sight is known while a rule is described. -/
theorem takes_of_sight (h : Sight budget words → step.Takes budget words post) :
    step.Takes budget words post := fun hsight => h hsight hsight

theorem takes_ite {c : Bool} {other : Parse α} (h : c = true → step.Takes budget words post)
    (hother : c = false → other.Takes budget words post) :
    Takes (if c then step else other) budget words post := by
  cases hc : c with
  | true => exact h hc
  | false => exact hother hc

theorem takes_get {next : Parser → Parse α}
    (h : ∀ parser : Parser, parser.words = words → (next parser).Takes budget words post) :
    Takes (get >>= next) budget words post :=
  fun hsight parser value after hwords => h parser hwords hsight parser value after hwords

theorem takes_current {next : Token → Parse α}
    (h : ∀ token : Token, token.word = words.head → words.head.Spelt →
      (next token).Takes budget words post) : Takes (current >>= next) budget words post := by
  intro hsight parser value after hwords
  refine h parser.current ?_ (hsight.spelt 0) hsight parser value after hwords
  rw [← hwords]
  rfl

theorem takes_currentIs {kind : Token.Kind} {next : Bool → Parse α}
    (h : (next (words.head.kind == kind)).Takes budget words post) :
    Takes (currentIs kind >>= next) budget words post := by
  intro hsight parser value after hwords
  subst hwords
  exact h hsight parser value after rfl

theorem takes_peekIs {kind : Token.Kind} {next : Bool → Parse α}
    (h : (next (words.tail.head.kind == kind)).Takes budget words post) :
    Takes (peekIs kind >>= next) budget words post := by
  intro hsight parser value after hwords
  subst hwords
  exact h hsight parser value after rfl

/-- Moving on passes the current word. -/
theorem advance_takes : advance.Takes budget words fun _ passed rest =>
    words.tail.head.Spelt ∧ passed = [words.head] ∧ rest = words.tail := by
  intro hsight parser value after hwords hr
  unfold advance raiseFault at hr
  split at hr
  next hnone =>
    cases hr
    have hshift := parser.words_shift
    rw [hwords] at hshift
    refine ⟨_, Parser.moves_shift hnone, hsight.spelt 1, ?_, ?_⟩
    · exact congrArg (fun all : Stream' Word => [all.head]) hwords
    · exact (congrArg Stream'.tail hshift).symm
  next => cases hr

theorem takes_advance {next : Unit → Parse α}
    (h : words.tail.head.Spelt → (next ()).Takes budget words.tail
      fun result more last => post result (words.head :: more) last) :
    Takes (advance >>= next) budget words post := by
  refine advance_takes.bind fun _ passed rest hpost => ?_
  obtain ⟨hspelt, rfl, rfl⟩ := hpost
  exact h hspelt

/-- Insisting on a kind passes the current word, and the next one is of the kind. -/
theorem takes_expectPeek {kind : Token.Kind} {next : Unit → Parse α}
    (h : words.tail.head.kind = kind → words.tail.head.Spelt → (next ()).Takes budget words.tail
      fun result more last => post result (words.head :: more) last) :
    Takes (expectPeek kind >>= next) budget words post := by
  intro hsight parser value after hwords hr
  obtain ⟨_, between, hexpect, hnext⟩ := Attempt.bind_eq_ok hr
  unfold expectPeek at hexpect
  split at hexpect
  next hkind =>
    have hpeek : words.tail.head.kind = kind := by
      rw [← hwords]
      exact beq_iff_eq.mp hkind
    exact takes_advance (h hpeek) hsight parser value after hwords
      ((Attempt.bind_of_ok hexpect).trans hnext)
  next => cases hexpect

theorem takes_expectCurrent {kind : Token.Kind} {next : Unit → Parse α}
    (h : words.head.kind = kind → words.head.Spelt → (next ()).Takes budget words post) :
    Takes (expectCurrent kind >>= next) budget words post := by
  intro hsight parser value after hwords hr
  obtain ⟨_, between, hexpect, hnext⟩ := Attempt.bind_eq_ok hr
  unfold expectCurrent at hexpect
  split at hexpect
  next hkind =>
    cases hexpect
    have hcurrent : words.head.kind = kind := by
      rw [← hwords]
      exact beq_iff_eq.mp hkind
    exact h hcurrent (hsight.spelt 0) hsight parser value after hwords hnext
  next => cases hexpect

/-- Tracing a rule changes nothing that is in sight. -/
theorem Takes.rule (h : step.Takes budget words post) (name : String) :
    (rule name step).Takes budget words post := by
  intro hsight parser value after hwords hr
  unfold Parse.rule at hr
  split at hr
  · dsimp only at hr
    generalize hentered : { parser.trace (name ++ " (") with
      indent := (parser.trace (name ++ " (")).indent + 1 } = entered at hr
    have hsame : entered.words = words := by rwa [← hentered]
    generalize hstep : step entered = out at hr
    obtain ⟨result, inner⟩ := out
    cases hr
    obtain ⟨passed, hmoves, hpost⟩ := h hsight entered value inner hsame hstep
    rw [← hentered] at hmoves
    exact ⟨passed, ⟨hmoves.words_eq, hmoves.drawn⟩, hpost⟩
  · exact h hsight parser value after hwords hr

theorem Takes.nested (h : step.Takes budget words post) :
    (nested step).Takes budget words post := by
  intro hsight parser value after hwords hr
  unfold Parse.nested at hr
  split at hr
  · cases hr
  · split at hr
    next result inner hstep =>
      cases hr
      obtain ⟨passed, hmoves, hpost⟩ :=
        h hsight { parser with depth := parser.depth + 1 } value inner hwords hstep
      exact ⟨passed, ⟨hmoves.words_eq, hmoves.drawn⟩, hpost⟩

end Parse

end Simian
