import Simian.Proofs.WrittenTrees

/-!
# From text to words

The lexer gives back the words that a text was spelled with. A word stops where a space or
the end follows, and it never starts with a character that is skipped before a word. The
literal of a token is cut out of the text between two places of the cursor, so these are
followed character by character (`Cursor.past`).
-/
namespace Simian

/-! ### Characters that words start with -/

namespace Text

theorem le_toNat_of_isAlpha {c : Char} (h : c.isAlpha = true) : 'A'.toNat ≤ c.toNat := by
  have hletter : (c.isUpper || c.isLower) = true := h
  rcases Bool.or_eq_true_iff.mp hletter with hupper | hlower
  · have hbounds : 'A'.val ≤ c.val ∧ c.val ≤ 'Z'.val := of_decide_eq_true hupper
    exact hbounds.1
  · have hbounds : (decide ('a'.val ≤ c.val) && decide (c.val ≤ 'z'.val)) = true := hlower
    exact Nat.le_trans (by decide) (of_decide_eq_true (Bool.and_eq_true_iff.mp hbounds).1)

/-- Below the letters there is no letter. -/
theorem isAlphabetic_of_lt {c : Char} (h : c.toNat < 'A'.toNat) : isAlphabetic c = false := by
  unfold isAlphabetic
  rw [if_pos (Nat.lt_trans h (by decide))]
  exact Bool.eq_false_iff.mpr fun ha => Nat.not_lt_of_le (le_toNat_of_isAlpha ha) h

theorem lt_of_isBlank {c : Char} (h : isBlank c = true) (hlt : c.toNat < 0x80) :
    c.toNat < 'A'.toNat := by
  have hupper : 'A'.toNat = 65 := rfl
  unfold isBlank at h
  rw [if_pos hlt, Bool.or_eq_true, Bool.and_eq_true, decide_eq_true_eq, decide_eq_true_eq,
    beq_iff_eq] at h
  rcases h with rfl | ⟨-, hle⟩
  · decide
  · omega

/-- No letter is white space. -/
theorem isAlphabetic_of_isBlank {c : Char} (h : isBlank c = true) : isAlphabetic c = false := by
  have hapart : blankRanges.toList.all (fun blank => alphabeticRanges.toList.all fun letter =>
      letter.2 < blank.1 || blank.2 < letter.1) = true := by decide +kernel
  by_cases hlt : c.toNat < 0x80
  · exact isAlphabetic_of_lt (lt_of_isBlank h hlt)
  · unfold isBlank at h
    unfold isAlphabetic
    rw [if_neg hlt] at h ⊢
    obtain ⟨blank, hblank, hfirst, hlast⟩ := (Ranges.contains_iff _ _).mp h
    refine Bool.eq_false_iff.mpr fun hletter => ?_
    obtain ⟨letter, hmem, hstart, hstop⟩ := (Ranges.contains_iff _ _).mp hletter
    have hone := List.all_eq_true.mp (List.all_eq_true.mp hapart blank hblank.val) letter hmem.val
    rw [Bool.or_eq_true, decide_eq_true_eq, decide_eq_true_eq] at hone
    omega

end Text

namespace Token

theorem isBlank_of_isNameStart {c : Char} (h : isNameStart c = true) : Text.isBlank c = false := by
  refine Bool.eq_false_iff.mpr fun hblank => ?_
  rw [isNameStart, Text.isAlphabetic_of_isBlank hblank, Bool.false_or, beq_iff_eq] at h
  subst h
  exact absurd hblank (by decide)

theorem isBlank_of_isDigit {c : Char} (h : c.isDigit = true) : Text.isBlank c = false := by
  have hbounds := Char.isDigit_iff_toNat.mp h
  have hzero : '0'.toNat = 48 := rfl
  have hnine : '9'.toNat = 57 := rfl
  unfold Text.isBlank
  rw [if_pos (by omega), Bool.or_eq_false_iff, Bool.and_eq_false_iff, decide_eq_false_iff_not,
    decide_eq_false_iff_not]
  refine ⟨Bool.eq_false_iff.mpr fun hspace => ?_, .inr (by omega)⟩
  rw [beq_iff_eq] at hspace
  subst hspace
  cases h

theorem isNameStart_of_isDigit {c : Char} (h : c.isDigit = true) : isNameStart c = false := by
  have hbounds := (Char.isDigit_iff_toNat.mp h).2
  have hnine : '9'.toNat < 'A'.toNat := by decide
  rw [isNameStart, Text.isAlphabetic_of_lt (Nat.lt_of_le_of_lt hbounds hnine), Bool.false_or]
  refine Bool.eq_false_iff.mpr fun hbar => ?_
  rw [beq_iff_eq] at hbar
  subst hbar
  cases h

end Token

/-! ### Following the cursor -/

namespace Cursor

/-- The cursor after the characters, with the text behind them to come. -/
def past (cursor : Cursor) (chars text : List Char) : Cursor :=
  match chars with
  | [] => cursor
  | c :: rest => (cursor.step c (rest ++ text)).past rest text

variable {cursor : Cursor} {chars text : List Char}

theorem ahead_past (h : cursor.ahead = chars ++ text) : (cursor.past chars text).ahead = text := by
  induction chars generalizing cursor with
  | nil => exact h
  | cons c rest ih => exact ih rfl

theorem behind_past (cursor : Cursor) (chars text : List Char) :
    (cursor.past chars text).behind = chars.reverse ++ cursor.behind ∧
      (cursor.past chars text).offset = cursor.offset + byteLength chars := by
  induction chars generalizing cursor with
  | nil => exact ⟨rfl, rfl⟩
  | cons c rest ih =>
    obtain ⟨hbehind, hoffset⟩ := ih (cursor.step c (rest ++ text))
    rw [past]
    refine ⟨?_, ?_⟩
    · rw [hbehind, List.reverse_cons, List.append_assoc]
      rfl
    · rw [hoffset, byteLength, ← Nat.add_assoc]
      rfl

theorem takeBack_byteLength (latest behind gathered : List Char) :
    takeBack (byteLength latest) (latest ++ behind) gathered = latest.reverse ++ gathered := by
  induction latest generalizing gathered with
  | nil => cases behind <;> rfl
  | cons c rest ih =>
    have hpos := c.utf8Size_pos
    obtain ⟨size, hsize⟩ : ∃ size, c.utf8Size + byteLength rest = size + 1 :=
      ⟨c.utf8Size + byteLength rest - 1, by omega⟩
    rw [byteLength, hsize, List.cons_append, takeBack, ← hsize, Nat.add_sub_cancel_left, ih,
      List.reverse_cons, List.append_assoc]
    rfl

theorem byteLength_append (chars more : List Char) :
    byteLength (chars ++ more) = byteLength chars + byteLength more := by
  induction chars with
  | nil => rw [List.nil_append, byteLength, Nat.zero_add]
  | cons c rest ih => rw [List.cons_append, byteLength, byteLength, ih, Nat.add_assoc]

theorem byteLength_reverse (chars : List Char) : byteLength chars.reverse = byteLength chars := by
  induction chars with
  | nil => rfl
  | cons c rest ih =>
    rw [List.reverse_cons, byteLength_append, ih, byteLength, byteLength, byteLength, Nat.add_comm,
      Nat.add_zero]

/-- The text between two places is what was read between them. -/
theorem sliceFrom_past (cursor : Cursor) (chars text : List Char) :
    (cursor.past chars text).sliceFrom cursor.offset = chars := by
  obtain ⟨hbehind, hoffset⟩ := behind_past cursor chars text
  rw [sliceFrom, hbehind, hoffset, Nat.add_sub_cancel_left, ← byteLength_reverse,
    takeBack_byteLength, List.reverse_reverse, List.append_nil]

theorem advanceWhile_past {accept : Char → Bool} (h : ∀ c ∈ chars, accept c = true)
    (hstop : ∀ c ∈ text.head?, accept c = false) (cursor : Cursor) :
    advanceWhile accept cursor (chars ++ text) = cursor.past chars text := by
  induction chars generalizing cursor with
  | nil =>
    cases text with
    | nil => rfl
    | cons c rest =>
      exact if_neg (Bool.eq_false_iff.mp (hstop c rfl))
  | cons c rest ih =>
    rw [List.cons_append, advanceWhile, if_pos (h c List.mem_cons_self), past]
    exact ih (fun d hd => h d (List.mem_cons_of_mem _ hd)) _

end Cursor

/-! ### One word -/

/-- Whether the lexer takes the text for a number, as which it may be malformed. -/
def Token.spellsNumber (text : String) : Bool :=
  match text.toList with
  | [] => false
  | c :: rest => c.isDigit && rest.all isNumberPart

namespace Word

/-- The lexer reads the word where it is spelled, if a space or the end follows. -/
def Scans (word : Word) : Prop :=
  ∃ c rest, word.text = c :: rest ∧ Text.isBlank c = false ∧ (c = '/' → rest = []) ∧
    word.kind ≠ .eof ∧ ∀ (start : Cursor) (text : List Char), (∀ d ∈ text.head?, d = ' ') →
      ∃ token : Token, token.word = word ∧ Token.scanFrom start c (start.step c (rest ++ text)) =
        (⟨token, none⟩, start.past (c :: rest) text)

theorem text_of_ne {word : Word} (h : word.kind ≠ .string) : word.text = word.literal.toList :=
  if_neg h

/-- No character that goes on with a word is a space. -/
theorem stops_word {accept : Char → Bool} (h : accept ' ' = false) {text : List Char}
    (htext : ∀ d ∈ text.head?, d = ' ') : ∀ d ∈ text.head?, accept d = false := by
  intro d hd
  rw [htext d hd, h]

theorem literal_spanning (kind : Token.Kind) (start : Cursor) (more : List Char) {text : String}
    {chars : List Char} (h : text.toList = chars) :
    (Token.spanning kind start (start.past chars more)).literal = text := by
  rw [Token.spanning, Cursor.sliceFrom_past, ← h, String.ofList_toList]

theorem kind_ofName (text : String) :
    Token.Kind.ofName text ≠ .string ∧ Token.Kind.ofName text ≠ .eof := by
  unfold Token.Kind.ofName
  split <;> exact ⟨Token.Kind.noConfusion, Token.Kind.noConfusion⟩

/-- A name, or a keyword. -/
theorem scans_ofName {text : String} (h : Token.spellsName text = true) :
    Scans ⟨Token.Kind.ofName text, text⟩ := by
  unfold Token.spellsName at h
  split at h
  next => cases h
  next c rest htext =>
    rw [Bool.and_eq_true, List.all_eq_true] at h
    obtain ⟨hstart, hrest⟩ := h
    have hquote : c ≠ '"' := by
      rintro rfl
      exact absurd hstart (by decide)
    have hslash : c = '/' → rest = [] := by
      rintro rfl
      exact absurd hstart (by decide)
    refine ⟨c, rest, (text_of_ne (kind_ofName text).1).trans htext,
      Token.isBlank_of_isNameStart hstart, hslash, (kind_ofName text).2, fun start more hmore => ?_⟩
    have heat : (start.step c (rest ++ more)).eatWhile Token.isNamePart =
        start.past (c :: rest) more :=
      Cursor.advanceWhile_past hrest (stops_word (by decide) hmore) _
    rw [Token.scanFrom, if_neg hquote, if_pos hstart]
    dsimp only
    rw [heat, literal_spanning .ident start more htext]
    exact ⟨_, rfl, rfl⟩

theorem scans_name {text : String} (h : Token.isName text = true) : (name text).Scans := by
  rw [Token.isName, Bool.and_eq_true, beq_iff_eq] at h
  have hscans := scans_ofName h.1
  rwa [h.2] at hscans

/-- A digit, and letters, digits and underscores behind it. -/
theorem scans_numeral {text : String} (h : Token.spellsNumber text = true) :
    Scans ⟨.int, text⟩ := by
  unfold Token.spellsNumber at h
  split at h
  next => cases h
  next c rest htext =>
    rw [Bool.and_eq_true, List.all_eq_true] at h
    obtain ⟨hfirst, hparts⟩ := h
    have hquote : c ≠ '"' := by
      rintro rfl
      cases hfirst
    have hslash : c = '/' → rest = [] := by
      rintro rfl
      cases hfirst
    refine ⟨c, rest, (text_of_ne Token.Kind.noConfusion).trans htext,
      Token.isBlank_of_isDigit hfirst, hslash, Token.Kind.noConfusion, fun start more hmore => ?_⟩
    have heat : (start.step c (rest ++ more)).eatWhile Token.isNumberPart =
        start.past (c :: rest) more :=
      Cursor.advanceWhile_past hparts (stops_word (by decide) hmore) _
    rw [Token.scanFrom, if_neg hquote,
      if_neg (by rw [Token.isNameStart_of_isDigit hfirst]; decide), if_pos hfirst]
    dsimp only
    rw [heat]
    refine ⟨_, ?_, rfl⟩
    rw [Token.word, literal_spanning .int start more htext]
    rfl

theorem scans_number (value : Nat) : (number value).Scans := by
  have hdigits : ∀ c ∈ Nat.toDigits 10 value, c.isDigit = true :=
    fun c hc => Nat.isDigit_of_mem_toDigits (by decide) (by decide) hc
  obtain ⟨c, rest, hchars⟩ :=
    List.exists_cons_of_ne_nil (Nat.toDigits_ne_nil (n := value) (b := 10))
  rw [hchars] at hdigits
  have hparts : ∀ d ∈ rest, Token.isNumberPart d = true := by
    intro d hd
    rw [Token.isNumberPart, Char.isAlphanum, hdigits d (List.mem_cons_of_mem _ hd), Bool.or_true,
      Bool.true_or]
  refine scans_numeral ?_
  rw [Token.spellsNumber, Nat.toList_repr, hchars]
  dsimp only
  rw [Bool.and_eq_true, List.all_eq_true]
  exact ⟨hdigits c List.mem_cons_self, hparts⟩

/-- Guarded characters are read as the characters that they stand for. -/
theorem scanString_guarded (value read : List Char) (cursor : Cursor) (text : List Char) :
    Token.scanString read false cursor (value.flatMap guarded ++ '"' :: text) =
      (some (read.reverse ++ value), cursor.past (value.flatMap guarded ++ ['"']) text) := by
  induction value generalizing read cursor with
  | nil =>
    rw [List.append_nil]
    rfl
  | cons c rest ih =>
    have hread : (c :: read).reverse ++ rest = read.reverse ++ c :: rest := by
      rw [List.reverse_cons, List.append_assoc]
      rfl
    rw [← hread, List.flatMap_cons, guarded]
    split
    next hc =>
      have hescape : (Token.unescape c).reverse ++ read = c :: read := by
        rcases hc with rfl | rfl <;> rfl
      simp only [List.cons_append, List.nil_append, Cursor.past]
      rw [Token.scanString, if_neg Bool.false_ne_true, if_neg (by decide), if_pos rfl,
        Token.scanString, if_pos rfl, hescape, ih, List.append_assoc]
      rfl
    next hc =>
      rw [not_or] at hc
      simp only [List.cons_append, List.nil_append, Cursor.past]
      rw [Token.scanString, if_neg Bool.false_ne_true, if_neg hc.1, if_neg hc.2, ih,
        List.append_assoc]
      rfl

theorem scans_string (value : String) : (string value).Scans := by
  have hslash : '"' = '/' → value.toList.flatMap guarded ++ ['"'] = [] :=
    fun he => absurd he (by decide)
  refine ⟨'"', value.toList.flatMap guarded ++ ['"'], rfl, by decide, hslash,
    Token.Kind.noConfusion, fun start more _ => ?_⟩
  have hscan : Token.scanString [] false
      (start.step '"' (value.toList.flatMap guarded ++ ['"'] ++ more))
      (start.step '"' (value.toList.flatMap guarded ++ ['"'] ++ more)).ahead =
        (some value.toList, start.past ('"' :: (value.toList.flatMap guarded ++ ['"'])) more) := by
    refine Eq.trans ?_ (scanString_guarded value.toList [] _ more)
    rw [← List.append_cons]
    rfl
  rw [Token.scanFrom, if_pos rfl, hscan]
  refine ⟨_, ?_, rfl⟩
  exact congrArg (Word.mk .string) String.ofList_toList

/-- An operator or delimiter of one character. -/
theorem scans_single {kind : Token.Kind} {c : Char} (hname : kind.name.toList = [c])
    (hsymbol : Token.symbol? c ' ' = some (kind, false) ∧
      Token.symbol? c Cursor.endMark = some (kind, false))
    (hclass : c ≠ '"' ∧ Token.isNameStart c = false ∧ c.isDigit = false ∧ Text.isBlank c = false)
    (hkind : kind ≠ .string ∧ kind ≠ .eof) : (sign kind).Scans := by
  obtain ⟨hquote, hname', hdigit, hblank⟩ := hclass
  refine ⟨c, [], (text_of_ne hkind.1).trans hname, hblank, fun _ => rfl, hkind.2,
    fun start more hmore => ?_⟩
  have hnext : (start.step c ([] ++ more)).first = ' ' ∨
      (start.step c ([] ++ more)).first = Cursor.endMark := by
    cases more with
    | nil => exact .inr rfl
    | cons d rest => exact .inl (hmore d rfl)
  have hfound : Token.symbol? c (start.step c ([] ++ more)).first = some (kind, false) := by
    rcases hnext with he | he <;> rw [he]
    · exact hsymbol.1
    · exact hsymbol.2
  rw [Token.scanFrom, if_neg hquote, if_neg (Bool.eq_false_iff.mp hname'),
    if_neg (Bool.eq_false_iff.mp hdigit), hfound]
  refine ⟨_, ?_, rfl⟩
  exact congrArg (Word.mk kind) (literal_spanning kind start more hname)

/-- An operator of two characters. -/
theorem scans_double {kind : Token.Kind} {c d : Char} (hname : kind.name.toList = [c, d])
    (hsymbol : Token.symbol? c d = some (kind, true))
    (hclass : c ≠ '"' ∧ Token.isNameStart c = false ∧ c.isDigit = false ∧ Text.isBlank c = false)
    (hslash : c ≠ '/') (hkind : kind ≠ .string ∧ kind ≠ .eof) : (sign kind).Scans := by
  obtain ⟨hquote, hname', hdigit, hblank⟩ := hclass
  refine ⟨c, [d], (text_of_ne hkind.1).trans hname, hblank, fun he => absurd he hslash, hkind.2,
    fun start more _ => ?_⟩
  have hfound : Token.symbol? c (start.step c ([d] ++ more)).first = some (kind, true) := hsymbol
  rw [Token.scanFrom, if_neg hquote, if_neg (Bool.eq_false_iff.mp hname'),
    if_neg (Bool.eq_false_iff.mp hdigit), hfound]
  refine ⟨_, ?_, rfl⟩
  exact congrArg (Word.mk kind) (literal_spanning kind start more hname)

/-- Whether the kind has one spelling only. -/
def isFixed : Token.Kind → Bool
  | .ident | .int | .string | .illegal | .eof => false
  | _ => true

theorem scans_keyword {kind : Token.Kind} (hname : Token.Kind.ofName kind.name = kind)
    (h : Token.spellsName kind.name = true) : (sign kind).Scans := by
  have hscans := scans_ofName h
  rwa [hname] at hscans

theorem scans_sign {kind : Token.Kind} (h : isFixed kind = true) : (sign kind).Scans := by
  cases kind with
  | ident | int | string | illegal | eof => cases h
  | letWord | returnWord | fnWord | ifWord | elseWord | trueWord | falseWord =>
    exact scans_keyword (by decide) (by decide)
  | lessEqual | greaterEqual | equalEqual | notEqual | andAnd | orOr | plusPlus | minusMinus =>
    exact scans_double rfl (by decide) (by decide +kernel) (by decide) (by decide)
  | _ => exact scans_single rfl (by decide +kernel) (by decide) (by decide)

end Word

theorem UnaryOp.isFixed_kind (op : UnaryOp) : Word.isFixed op.kind = true := by
  cases op <;> rfl

theorem BinaryOp.isFixed_kind (op : BinaryOp) : Word.isFixed op.kind = true := by
  cases op <;> rfl

theorem LogicalOp.isFixed_kind (op : LogicalOp) : Word.isFixed op.kind = true := by
  cases op <;> rfl

theorem BumpOp.isFixed_kind (op : BumpOp) : Word.isFixed op.kind = true := by
  cases op <;> rfl

/-! ### All the words -/

/-- The blanks in front of a word are skipped, and so are those at the end. -/
theorem Token.skipTrivia_blanks {blanks text : List Char}
    (hblanks : ∀ c ∈ blanks, Text.isBlank c = true)
    (htext : ∀ c rest, text = c :: rest → Text.isBlank c = false ∧
      ¬(c = '/' ∧ rest.head? = some '/')) (cursor : Cursor) :
    skipTrivia false cursor (blanks ++ text) = cursor.past blanks text := by
  induction blanks generalizing cursor with
  | nil =>
    cases text with
    | nil => rfl
    | cons c rest =>
      obtain ⟨hblank, hcomment⟩ := htext c rest rfl
      rw [List.nil_append, skipTrivia, if_neg Bool.false_ne_true,
        if_neg (Bool.eq_false_iff.mp hblank), if_neg hcomment]
      rfl
  | cons c rest ih =>
    obtain ⟨hblank, hrest⟩ := List.forall_mem_cons.mp hblanks
    rw [List.cons_append, skipTrivia, if_neg Bool.false_ne_true, if_pos hblank, ih hrest]
    rfl

theorem Text.isBlank_spaces (gap : Nat) : ∀ c ∈ List.replicate gap ' ', isBlank c = true := by
  intro c hc
  rw [List.eq_of_mem_replicate hc]
  decide

/-- A word behind spaces is the next token. -/
theorem Word.Scans.scan {word : Word} (h : word.Scans) (gap : Nat) {text : List Char}
    (htext : ∀ d ∈ text.head?, d = ' ') {cursor : Cursor}
    (hahead : cursor.ahead = List.replicate gap ' ' ++ word.text ++ text) :
    ∃ token stop, Token.scan cursor = (⟨token, none⟩, stop) ∧ token.word = word ∧
      token.kind ≠ .eof ∧ stop.ahead = text := by
  obtain ⟨c, rest, hword, hblank, hslash, hkind, hscans⟩ := h
  rw [hword, List.append_assoc, List.cons_append] at hahead
  have hcomment : ¬(c = '/' ∧ (rest ++ text).head? = some '/') := by
    rintro ⟨he, hhead⟩
    rw [hslash he, List.nil_append] at hhead
    exact absurd (htext '/' hhead) (by decide)
  have hstart : Token.skipTrivia false cursor cursor.ahead =
      cursor.past (List.replicate gap ' ') (c :: (rest ++ text)) := by
    rw [hahead]
    refine Token.skipTrivia_blanks (Text.isBlank_spaces gap) (fun first more hfirst => ?_) cursor
    obtain ⟨rfl, rfl⟩ := List.cons.inj hfirst
    exact ⟨hblank, hcomment⟩
  have hat : (cursor.past (List.replicate gap ' ') (c :: (rest ++ text))).ahead =
      (c :: rest) ++ text := Cursor.ahead_past hahead
  obtain ⟨token, htoken, hfrom⟩ := hscans _ text htext
  refine ⟨token, _, ?_, htoken, ?_, Cursor.ahead_past hat⟩
  · rw [Token.scan, hstart, hat]
    exact hfrom
  · rw [← htoken] at hkind
    exact hkind

/-- Behind the last word nothing but the end is found. -/
theorem Token.scan_spaces (gap : Nat) {cursor : Cursor}
    (hahead : cursor.ahead = List.replicate gap ' ') :
    ∃ token stop, scan cursor = (⟨token, none⟩, stop) ∧ token.word = .eof := by
  have hstart : skipTrivia false cursor cursor.ahead = cursor.past (List.replicate gap ' ') [] := by
    rw [hahead]
    have hnone : ∀ c rest, ([] : List Char) = c :: rest → Text.isBlank c = false ∧
        ¬(c = '/' ∧ rest.head? = some '/') := fun _ _ he => absurd he.symm (List.cons_ne_nil _ _)
    have hskip := skipTrivia_blanks (Text.isBlank_spaces gap) hnone cursor
    rwa [List.append_nil] at hskip
  have hat : (cursor.past (List.replicate gap ' ') []).ahead = [] :=
    Cursor.ahead_past (by rw [hahead, List.append_nil])
  generalize cursor.past (List.replicate gap ' ') [] = start at hstart hat
  refine ⟨spanning .eof start start, start, ?_, ?_⟩
  · rw [scan, hstart, hat]
  · exact congrArg (fun chars => Word.mk .eof (String.ofList chars))
      (Cursor.sliceFrom_past start [] [])

namespace TokenStream

section
variable {cursor stop : Cursor} {scanned : Token.Scanned} {read : List Token.Scanned}

theorem collect_of_eof (h : Token.scan cursor = (scanned, stop))
    (hk : scanned.token.kind = .eof) : collect cursor read = ⟨read.reverse, scanned.token⟩ := by
  rw [collect]
  split
  next found rest he =>
    cases h.symm.trans he
    exact dif_pos hk

theorem collect_of_ne (h : Token.scan cursor = (scanned, stop))
    (hk : scanned.token.kind ≠ .eof) : collect cursor read = collect stop (scanned :: read) := by
  rw [collect]
  split
  next found rest he =>
    cases h.symm.trans he
    exact dif_neg hk

end

/-- The stream has the words that the text was spelled with, and no fault. -/
structure Spells (stream : TokenStream) (words : List Word) : Prop where
  words_eq : stream.pending.map (·.token.word) = words
  clean : ∀ scanned ∈ stream.pending, scanned.fault = none
  endMark : stream.endMark.word = .eof

theorem spells_collect {words : List Word} {text : List Char} (h : Spaced words text)
    (hwords : ∀ word ∈ words, word.Scans) {cursor : Cursor} (hahead : cursor.ahead = text)
    (read : List Token.Scanned) (hread : ∀ scanned ∈ read, scanned.fault = none) :
    (collect cursor read).Spells (read.reverse.map (·.token.word) ++ words) := by
  induction h generalizing cursor read with
  | nil gap =>
    obtain ⟨token, stop, hscan, htoken⟩ := Token.scan_spaces gap hahead
    rw [collect_of_eof hscan (congrArg Word.kind htoken), List.append_nil]
    exact ⟨rfl, fun scanned hs => hread scanned (List.mem_reverse.mp hs), htoken⟩
  | @cons word rest text gap _ htext ih =>
    obtain ⟨token, stop, hscan, htoken, hkind, hstop⟩ :=
      (hwords word List.mem_cons_self).scan gap htext hahead
    have hmore := ih (fun other ho => hwords other (List.mem_cons_of_mem _ ho)) hstop
      (⟨token, none⟩ :: read) (List.forall_mem_cons.mpr ⟨rfl, hread⟩)
    rw [collect_of_ne hscan hkind]
    rwa [List.reverse_cons, List.map_append, List.append_assoc, List.map_singleton, htoken] at hmore

theorem spells_ofString {words : List Word} {text : String} (h : Spaced words text.toList)
    (hwords : ∀ word ∈ words, word.Scans) : (ofString text).Spells words :=
  spells_collect h hwords rfl [] (List.forall_mem_nil _)

end TokenStream

/-! ### The words of any text -/

namespace Word

/-- A word of a kind with one spelling has that spelling. -/
def Spelt (word : Word) : Prop := isFixed word.kind = true → word = sign word.kind

theorem Spelt.eq_sign {word : Word} (h : word.Spelt) {kind : Token.Kind} (hk : word.kind = kind)
    (hfixed : isFixed kind = true) : word = sign kind := by
  subst hk
  exact h hfixed

theorem spelt_of_not_isFixed {word : Word} (h : isFixed word.kind = false) : word.Spelt := by
  intro hfixed
  rw [h] at hfixed
  cases hfixed

end Word

namespace Token

theorem name_ofName {text : String} (h : Word.isFixed (Kind.ofName text) = true) :
    (Kind.ofName text).name = text := by
  unfold Kind.ofName at h ⊢
  split at h
  case h_8 => cases h
  all_goals rfl

/-- A symbol is spelled by its one character or by its two. -/
theorem name_symbol? {c next : Char} {kind : Kind} {wide : Bool}
    (h : symbol? c next = some (kind, wide)) :
    kind.name.toList = if wide then [c, next] else [c] := by
  unfold symbol? at h
  split at h
  case h_1 | h_2 | h_3 | h_4 | h_5 | h_6 | h_7 | h_8 =>
    split at h
    · subst next
      cases h
      rfl
    · cases h
      try rfl
  case h_21 => cases h
  all_goals
    cases h
    rfl

/-- No symbol goes on with the end. -/
theorem symbol?_endMark {c : Char} {kind : Kind} :
    symbol? c Cursor.endMark ≠ some (kind, true) := by
  intro h
  unfold symbol? at h
  split at h <;> simp [Cursor.endMark] at h

theorem spelt_spanning {kind : Kind} {start : Cursor} {chars : List Char} (more : List Char)
    (h : kind.name.toList = chars) : (spanning kind start (start.past chars more)).word.Spelt :=
  fun _ => congrArg (Word.mk kind) (Word.literal_spanning kind start more h)

theorem spelt_scanFrom (start : Cursor) (c : Char) (rest : List Char) :
    (scanFrom start c (start.step c rest)).1.token.word.Spelt := by
  unfold scanFrom
  split
  · split
    · exact Word.spelt_of_not_isFixed rfl
    · exact Word.spelt_of_not_isFixed rfl
  · split
    · intro hfixed
      exact congrArg (Word.mk _) (name_ofName hfixed).symm
    · split
      · exact Word.spelt_of_not_isFixed rfl
      · split
        next kind hsymbol => exact spelt_spanning rest (name_symbol? hsymbol)
        next kind hsymbol =>
          cases rest with
          | nil => exact absurd hsymbol symbol?_endMark
          | cons d more => exact spelt_spanning more (name_symbol? hsymbol)
        · exact Word.spelt_of_not_isFixed rfl

theorem spelt_scan (cursor : Cursor) : (scan cursor).1.token.word.Spelt := by
  unfold scan
  dsimp only
  split
  · exact Word.spelt_of_not_isFixed rfl
  · exact spelt_scanFrom _ _ _

end Token

namespace TokenStream

/-- The token is spelt as its kind is, and is not the end mark. -/
def Proper (scanned : Token.Scanned) : Prop :=
  scanned.token.word.Spelt ∧ scanned.token.kind ≠ .eof

/-- The end mark comes after the last token and not before. -/
structure Regular (stream : TokenStream) : Prop where
  proper : ∀ scanned ∈ stream.pending, Proper scanned
  endMark : stream.endMark.kind = .eof

/-- What holds of every token that a call gives holds of all the tokens of a stream, and the end
mark comes behind them. -/
theorem forall_collect {holds : Token.Scanned → Prop}
    (hholds : ∀ cursor, (Token.scan cursor).1.token.kind ≠ .eof → holds (Token.scan cursor).1)
    (cursor : Cursor) (read : List Token.Scanned) (h : ∀ scanned ∈ read, holds scanned) :
    (∀ scanned ∈ (collect cursor read).pending, holds scanned) ∧
      (collect cursor read).endMark.kind = .eof := by
  induction cursor, read using collect.induct with
  | case1 cursor read scanned rest hscan hkind =>
    rw [collect_of_eof hscan hkind]
    exact ⟨fun other ho => h other (List.mem_reverse.mp ho), hkind⟩
  | case2 cursor read scanned rest hscan hkind ih =>
    have hnext := hholds cursor
    rw [hscan] at hnext
    rw [collect_of_ne hscan hkind]
    exact ih (List.forall_mem_cons.mpr ⟨hnext hkind, h⟩)

theorem regular_ofString (source : String) : (ofString source).Regular := by
  have hproper : ∀ cursor, (Token.scan cursor).1.token.kind ≠ .eof →
      Proper (Token.scan cursor).1 := fun cursor hk => ⟨Token.spelt_scan cursor, hk⟩
  obtain ⟨hall, hend⟩ := forall_collect hproper (.ofString source) [] (List.forall_mem_nil _)
  exact ⟨hall, hend⟩

end TokenStream

end Simian
