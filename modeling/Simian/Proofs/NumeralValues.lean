import Mathlib.Data.Nat.Digits.Defs
import Simian.Proofs.TokenTiling
import Simian.Tree.Numeral

/-!
# The numbers that literals stand for

A literal says its radix at its front, and figures of that radix follow, with single underscores
between some of them. `Numeral.StandsFor` gives it the number that its figures stand for by their
places. The literals of number tokens are a digit with letters, digits and underscores behind it,
and of these just those are read that stand for a number of 63 bits (`Numeral.exact_of_tokens`).
-/
namespace Simian

namespace Numeral

/-! ### What a literal stands for -/

/-- The figures of all radices, with their worth. Letters count on from ten in either case. -/
def figures : List (Char × Nat) :=
  "0123456789abcdef".toList.zipIdx ++ "ABCDEF".toList.zipIdx 10

/-- Figures of the radix with single underscores between some of them, and the worth of each, that
of the highest place first. -/
inductive Run (radix : Nat) : List Char → List Nat → Prop where
  | last {c : Char} {worth : Nat} : (c, worth) ∈ figures → worth < radix → Run radix [c] [worth]
  | next {c : Char} {worth : Nat} {chars : List Char} {more : List Nat} :
    (c, worth) ∈ figures → worth < radix → Run radix chars more →
    Run radix (c :: chars) (worth :: more)
  | apart {c : Char} {worth : Nat} {chars : List Char} {more : List Nat} :
    (c, worth) ∈ figures → worth < radix → Run radix chars more →
    Run radix (c :: '_' :: chars) (worth :: more)

/-- The radix that a literal says, and what stands behind that. A zero that stands alone is
decimal, and one with more behind it is the mark of radix eight. -/
inductive Marked : List Char → Nat → List Char → Prop where
  | sixteen {mark : Char} {chars : List Char} : mark = 'x' ∨ mark = 'X' →
    Marked ('0' :: mark :: chars) 16 chars
  | eight {mark : Char} {chars : List Char} : mark = 'o' ∨ mark = 'O' →
    Marked ('0' :: mark :: chars) 8 chars
  | two {mark : Char} {chars : List Char} : mark = 'b' ∨ mark = 'B' →
    Marked ('0' :: mark :: chars) 2 chars
  | zero {c : Char} {chars : List Char} : Marked ('0' :: c :: chars) 8 (c :: chars)
  | ten {literal : List Char} : (∀ c chars, literal ≠ '0' :: c :: chars) →
    Marked literal 10 literal

/-- The literal is well formed, and its figures stand for the number by their places. -/
def StandsFor (literal : List Char) (number : Nat) : Prop :=
  ∃ radix chars worths, Marked literal radix chars ∧ Run radix chars worths ∧
    number = Nat.ofDigits radix worths.reverse

/-! ### Single figures -/

/-- Whatever has a worth comes before the end of the small letters. -/
theorem toNat_le_of_digitValue? {c : Char} {worth : Nat} (h : digitValue? c = some worth) :
    c.toNat ≤ 'z'.toNat := by
  unfold digitValue? at h
  split at h
  next hdigit => exact Nat.le_trans (Char.isDigit_iff_toNat.mp hdigit).2 (by decide)
  · split at h
    next hsmall => exact hsmall.2
    · split at h
      next hlarge => exact Nat.le_trans hlarge.2 (by decide)
      · cases h

/-- A character is worth less than sixteen just if it is a figure. -/
theorem digitValue?_eq_some_iff {c : Char} {worth : Nat} (h : worth < 16) :
    digitValue? c = some worth ↔ (c, worth) ∈ figures := by
  constructor
  · have hall : ∀ place < 123, ∀ worth ∈ digitValue? (Char.ofNat place), worth < 16 →
        (Char.ofNat place, worth) ∈ figures := by decide +kernel
    intro hc
    have hm := hall c.toNat (Nat.lt_succ_of_le (toNat_le_of_digitValue? hc))
    rw [Char.ofNat_toNat] at hm
    exact hm worth hc h
  · have hall : ∀ figure ∈ figures, digitValue? figure.1 = some figure.2 := by decide
    exact fun hm => hall _ hm

theorem ne_bar_of_mem_figures {c : Char} {worth : Nat} (h : (c, worth) ∈ figures) : c ≠ '_' := by
  have hall : ∀ figure ∈ figures, figure.1 ≠ '_' := by decide
  exact hall _ h

/-! ### Runs of figures -/

section
variable {radix value result worth : Nat} {c : Char} {chars : List Char} {worths : List Nat}

/-- What may stand behind a figure. -/
inductive Behind (radix : Nat) : List Char → List Nat → Prop where
  | done : Behind radix [] []
  | next {chars : List Char} {worths : List Nat} : Run radix chars worths →
    Behind radix chars worths
  | apart {chars : List Char} {worths : List Nat} : Run radix chars worths →
    Behind radix ('_' :: chars) worths

theorem Behind.run (h : Behind radix chars worths) (hm : (c, worth) ∈ figures)
    (hlt : worth < radix) : Run radix (c :: chars) (worth :: worths) := by
  cases h with
  | done => exact .last hm hlt
  | next hrun => exact .next hm hlt hrun
  | apart hrun => exact .apart hm hlt hrun

/-- A figure makes what was read one place higher. -/
theorem ofDigits_higher (radix value worth : Nat) (worths : List Nat) :
    Nat.ofDigits radix ((worth :: worths).reverse ++ [value]) =
      Nat.ofDigits radix (worths.reverse ++ [value * radix + worth]) := by
  have hplaces : Nat.ofDigits radix [worth, value] = value * radix + worth := by
    rw [Nat.ofDigits_cons, Nat.ofDigits_singleton, Nat.mul_comm, Nat.add_comm]
  rw [List.reverse_cons, List.append_assoc, List.singleton_append, Nat.ofDigits_append,
    Nat.ofDigits_append, hplaces, Nat.ofDigits_singleton]

theorem readDigits_figure (hm : (c, worth) ∈ figures) (hlt : worth < radix) (hradix : radix ≤ 16)
    (afterDigit : Bool) : readDigits radix value afterDigit (c :: chars) =
      readDigits radix (value * radix + worth) true chars := by
  have hworth := (digitValue?_eq_some_iff (Nat.lt_of_lt_of_le hlt hradix)).mpr hm
  rw [readDigits, if_neg (ne_bar_of_mem_figures hm), hworth]
  exact if_pos hlt

/-- A run is read to its end, whatever was read before. -/
theorem readDigits_of_run (h : Run radix chars worths) (hradix : radix ≤ 16) (afterDigit : Bool) :
    readDigits radix value afterDigit chars =
      some (Nat.ofDigits radix (worths.reverse ++ [value])) := by
  induction h generalizing value afterDigit with
  | last hm hlt =>
    rw [readDigits_figure hm hlt hradix, ofDigits_higher]
    exact congrArg some Nat.ofDigits_singleton.symm
  | next hm hlt _ ih => rw [readDigits_figure hm hlt hradix, ih, ofDigits_higher]
  | apart hm hlt _ ih =>
    rw [readDigits_figure hm hlt hradix, readDigits, if_pos rfl, if_pos rfl, ih, ofDigits_higher]

/-- Whatever is read is a run, or may stand behind a figure if one was read before. -/
theorem run_of_readDigits (hradix : radix ≤ 16) {afterDigit : Bool}
    (h : readDigits radix value afterDigit chars = some result) :
    ∃ worths, (if afterDigit then Behind radix chars worths else Run radix chars worths) ∧
      result = Nat.ofDigits radix (worths.reverse ++ [value]) := by
  induction chars generalizing value afterDigit with
  | nil =>
    rw [readDigits] at h
    cases afterDigit with
    | true =>
      cases h
      exact ⟨[], .done, Nat.ofDigits_singleton.symm⟩
    | false => cases h
  | cons c rest ih =>
    rw [readDigits] at h
    split at h
    next hbar =>
      subst hbar
      cases afterDigit with
      | true =>
        obtain ⟨worths, hrun, hresult⟩ := ih h
        exact ⟨worths, .apart hrun, hresult⟩
      | false => cases h
    next =>
      split at h
      next worth hworth =>
        split at h
        next hlt =>
          obtain ⟨worths, hbehind, hresult⟩ := ih h
          have hm := (digitValue?_eq_some_iff (Nat.lt_of_lt_of_le hlt hradix)).mp hworth
          have hrun := Behind.run hbehind hm hlt
          refine ⟨worth :: worths, ?_, by rw [hresult, ofDigits_higher]⟩
          cases afterDigit with
          | true => exact .next hrun
          | false => exact hrun
        · cases h
      · cases h

theorem readDigits_eq_some_iff (hradix : radix ≤ 16) :
    readDigits radix 0 false chars = some result ↔
      ∃ worths, Run radix chars worths ∧ result = Nat.ofDigits radix worths.reverse := by
  have hzero : ∀ worths : List Nat, Nat.ofDigits radix (worths.reverse ++ [0]) =
      Nat.ofDigits radix worths.reverse := by
    intro worths
    rw [Nat.ofDigits_append, Nat.ofDigits_singleton, Nat.mul_zero, Nat.add_zero]
  constructor
  · intro h
    obtain ⟨worths, hrun, hresult⟩ := run_of_readDigits hradix h
    exact ⟨worths, hrun, hresult.trans (hzero worths)⟩
  · rintro ⟨worths, hrun, rfl⟩
    rw [readDigits_of_run hrun hradix, hzero]

/-! ### The radix of a literal -/

theorem Marked.radix_le {literal : List Char} (h : Marked literal radix chars) : radix ≤ 16 := by
  cases h <;> decide

theorem marked_split (literal : List Char) :
    Marked literal (split literal).1 (split literal).2 := by
  unfold split
  split
  · exact .sixteen (.inl rfl)
  · exact .sixteen (.inr rfl)
  · exact .eight (.inl rfl)
  · exact .eight (.inr rfl)
  · exact .two (.inl rfl)
  · exact .two (.inr rfl)
  · exact .zero
  next hfirst => exact .ten fun c chars he => hfirst c chars he

/-- No letter that marks a radix is a figure of radix eight, so a zero before one is no radix mark
of its own. -/
theorem split_eq_of_run {literal : List Char} (hmarked : Marked literal radix chars)
    (hrun : Run radix chars worths) : split literal = (radix, chars) := by
  cases hmarked with
  | sixteen hmark | eight hmark | two hmark =>
    rcases hmark with rfl | rfl <;> rfl
  | @zero c chars =>
    have hnone : ∀ figure ∈ figures, figure.2 < 8 → figure.1 ∉ ['x', 'X', 'o', 'O', 'b', 'B'] := by
      decide
    have hc : c ∉ ['x', 'X', 'o', 'O', 'b', 'B'] := by
      cases hrun with
      | last hm hlt | next hm hlt _ | apart hm hlt _ => exact hnone _ hm hlt
    unfold split
    split
    case h_7 heq =>
      cases heq
      rfl
    case h_8 hfirst => exact (hfirst c chars rfl).elim
    all_goals
      next heq =>
        cases heq
        exact absurd (by decide) hc
  | ten hne =>
    unfold split
    split
    case h_8 => rfl
    all_goals exact absurd rfl (hne _ _)

/-- The digits behind the radix are read just if the literal stands for a number. -/
theorem readDigits_split_eq_some_iff {literal : List Char} {number : Nat} :
    readDigits (split literal).1 0 false (split literal).2 = some number ↔
      StandsFor literal number := by
  have hmarked := marked_split literal
  constructor
  · intro h
    obtain ⟨worths, hrun, hnumber⟩ := (readDigits_eq_some_iff hmarked.radix_le).mp h
    exact ⟨_, _, worths, hmarked, hrun, hnumber⟩
  · rintro ⟨radix, chars, worths, hmark, hrun, hnumber⟩
    rw [split_eq_of_run hmark hrun]
    exact (readDigits_eq_some_iff hmark.radix_le).mpr ⟨worths, hrun, hnumber⟩

end

theorem toInt_ofNat_of_le {number : Nat} (h : number ≤ 2 ^ 63 - 1) :
    (Int64.ofNat number).toInt = number :=
  Int64.toInt_ofNat_of_lt (Nat.lt_of_le_of_lt h (by decide))

/-- What is read has room in 63 bits. -/
theorem read?_eq_some_iff {literal : List Char} {value : Int64} : read? literal = some value ↔
    ∃ number, StandsFor literal number ∧ number ≤ 2 ^ 63 - 1 ∧ value.toInt = number := by
  have hmax : Int64.maxValue.toNatClampNeg = 2 ^ 63 - 1 := by decide
  unfold read?
  dsimp only
  rw [hmax]
  constructor
  · intro h
    split at h
    next number hnumber =>
      split at h
      next hle =>
        cases h
        exact ⟨number, readDigits_split_eq_some_iff.mp hnumber, hle, toInt_ofNat_of_le hle⟩
      · cases h
    · cases h
  · rintro ⟨number, hstands, hle, hvalue⟩
    rw [readDigits_split_eq_some_iff.mpr hstands]
    dsimp only
    rw [if_pos hle]
    exact congrArg some (Int64.toInt_inj.mp ((toInt_ofNat_of_le hle).trans hvalue.symm))

end Numeral

/-! ### Number tokens -/

namespace Token

theorem ofName_ne_int (text : String) : Kind.ofName text ≠ .int := by
  unfold Kind.ofName
  split <;> exact Kind.noConfusion

theorem ne_int_of_symbol? {c next : Char} {kind : Kind} {wide : Bool}
    (h : symbol? c next = some (kind, wide)) : kind ≠ .int := by
  have hname := congrArg List.length (name_symbol? h)
  rintro rfl
  cases wide <;> cases hname

/-- A number token is spelled as a number. -/
theorem spellsNumber_scanFrom {start : Cursor} {c : Char} {rest : List Char}
    (h : start.ahead = c :: rest)
    (hk : (scanFrom start c (start.step c rest)).1.token.kind = .int) :
    spellsNumber (scanFrom start c (start.step c rest)).1.token.literal = true := by
  unfold scanFrom at hk ⊢
  split at hk
  · split at hk <;> cases hk
  next hquote =>
    rw [if_neg hquote]
    split at hk
    · exact absurd hk (ofName_ne_int _)
    next hname =>
      rw [if_neg hname]
      split at hk
      next hdigit =>
        rw [if_pos hdigit]
        obtain ⟨chars, hchars, hall⟩ := Cursor.reads_eatWhile (start.step c rest) isNumberPart
        have hreads := (Cursor.reads_step h).trans hchars
        dsimp only
        rw [spellsNumber, spanning, hreads.sliceFrom_eq, String.toList_ofList]
        exact Bool.and_eq_true_iff.mpr ⟨hdigit, List.all_eq_true.mpr hall⟩
      · split at hk
        next hsymbol => exact absurd hk (ne_int_of_symbol? hsymbol)
        next hsymbol => exact absurd hk (ne_int_of_symbol? hsymbol)
        · cases hk

theorem spellsNumber_scan {cursor : Cursor} (hk : (scan cursor).1.token.kind = .int) :
    spellsNumber (scan cursor).1.token.literal = true := by
  unfold scan at hk ⊢
  dsimp only at hk ⊢
  generalize skipTrivia false cursor cursor.ahead = start at hk ⊢
  cases hahead : start.ahead with
  | nil =>
    rw [hahead] at hk
    cases hk
  | cons c rest =>
    rw [hahead] at hk
    exact spellsNumber_scanFrom hahead hk

/-- If the token is a number, it is spelled as one. -/
def SpellsInt (scanned : Scanned) : Prop :=
  scanned.token.kind = .int → spellsNumber scanned.token.literal = true

end Token

namespace TokenStream

/-- The texts of number tokens are those that are spelled as numbers. -/
theorem spellsNumber_iff {literal : String} : Token.spellsNumber literal = true ↔
    ∃ source, ∃ scanned ∈ (ofString source).pending,
      scanned.token.kind = .int ∧ scanned.token.literal = literal := by
  constructor
  · intro h
    have hspaced : Spaced [⟨.int, literal⟩] literal.toList := by
      have hword : Spaced [⟨.int, literal⟩] ([] ++ (Word.mk .int literal).text ++ []) :=
        .cons 0 (.nil 0) fun _ hc => by cases hc
      rw [Word.text_of_ne Token.Kind.noConfusion] at hword
      simpa using hword
    have hwords : (ofString literal).Spells [⟨.int, literal⟩] :=
      spells_ofString hspaced (List.forall_mem_singleton.mpr (Word.scans_numeral h))
    obtain ⟨scanned, hm, hword⟩ : ∃ scanned ∈ (ofString literal).pending,
        scanned.token.word = ⟨.int, literal⟩ := by
      refine List.mem_map.mp ?_
      rw [hwords.words_eq]
      exact List.mem_singleton_self _
    exact ⟨literal, scanned, hm, congrArg Word.kind hword, congrArg Word.literal hword⟩
  · rintro ⟨source, scanned, hm, hk, rfl⟩
    have hspells : ∀ cursor, (Token.scan cursor).1.token.kind ≠ .eof →
        Token.SpellsInt (Token.scan cursor).1 := fun _ _ => Token.spellsNumber_scan
    obtain ⟨hall, -⟩ := forall_collect hspells (.ofString source) [] (List.forall_mem_nil _)
    exact hall scanned hm hk

end TokenStream

namespace Numeral

/-- Number tokens have the texts that begin with a digit and go on with letters, digits and
underscores. Of all these texts just those are read that stand for a number of 63 bits, and each is
read as that number. -/
theorem exact_of_tokens (literal : String) :
    (Token.spellsNumber literal = true ↔
      ∃ source, ∃ scanned ∈ (TokenStream.ofString source).pending,
        scanned.token.kind = .int ∧ scanned.token.literal = literal) ∧
    (∀ value : Int64, read? literal.toList = some value ↔
      ∃ number, StandsFor literal.toList number ∧ number ≤ 2 ^ 63 - 1 ∧ value.toInt = number) ∧
    (read? literal.toList = none ↔
      ¬∃ number, StandsFor literal.toList number ∧ number ≤ 2 ^ 63 - 1) := by
  refine ⟨TokenStream.spellsNumber_iff, fun value => read?_eq_some_iff, ?_⟩
  constructor
  · rintro hnone ⟨number, hstands, hle⟩
    have hread := read?_eq_some_iff.mpr ⟨number, hstands, hle, toInt_ofNat_of_le hle⟩
    rw [hnone] at hread
    cases hread
  · intro hnot
    refine Option.eq_none_iff_forall_ne_some.mpr fun value hvalue => hnot ?_
    obtain ⟨number, hstands, hle, -⟩ := read?_eq_some_iff.mp hvalue
    exact ⟨number, hstands, hle⟩

/-- A zero that stands alone is no mark, and no mark has an underscore behind it. -/
example : read? "0".toList = some 0 ∧ read? "00".toList = some 0 ∧ read? "0_7".toList = none := by
  decide

end Numeral

end Simian
