import Mathlib.Data.List.DropRight
import Simian.Proofs.LineTableAgreement

/-!
# The carets stand under the span

An error is shown with the line that its span starts in, less what ends the line, and with one
caret for each character that both the span and this line have, at least one. Characters are
counted by where they start, so that nothing here depends on how many bytes they take. For a span
that lies anywhere at all, the line is there to be shown and is cut out of the source between
characters.
-/
namespace Simian

/-! ### Bytes of prefixes -/

/-- Of two texts that both begin a third, the one with fewer bytes begins the other. -/
theorem prefix_of_byteLength_le {front other text : List Char} (h : front <+: text)
    (ho : other <+: text) (hle : byteLength front ≤ byteLength other) : front <+: other := by
  rcases List.prefix_or_prefix_of_prefix h ho with hprefix | ⟨more, rfl⟩
  · exact hprefix
  · rw [Cursor.byteLength_append] at hle
    obtain rfl : more = [] := by
      by_contra hne
      have hpos := Token.Tiles.byteLength_pos hne
      omega
    simp only [List.append_nil, List.prefix_rfl]

/-- The offsets at which the characters of a text start, when it comes at the offset. -/
def charStarts (offset : Nat) : List Char → List Nat
  | [] => []
  | c :: rest => offset :: charStarts (offset + c.utf8Size) rest

theorem length_charStarts (offset : Nat) (text : List Char) :
    (charStarts offset text).length = text.length := by
  induction text generalizing offset with
  | nil => rfl
  | cons c rest ih => rw [charStarts, List.length_cons, List.length_cons, ih]

theorem charStarts_append (offset : Nat) (front back : List Char) :
    charStarts offset (front ++ back) =
      charStarts offset front ++ charStarts (offset + byteLength front) back := by
  induction front generalizing offset with
  | nil => rfl
  | cons c rest ih =>
    rw [List.cons_append, charStarts, charStarts, ih, byteLength, Nat.add_assoc, List.cons_append]

theorem bounds_of_mem_charStarts {offset start : Nat} {text : List Char}
    (h : start ∈ charStarts offset text) : offset ≤ start ∧ start < offset + byteLength text := by
  induction text generalizing offset with
  | nil => cases h
  | cons c rest ih =>
    have hpos := c.utf8Size_pos
    rw [byteLength]
    rcases List.mem_cons.mp h with rfl | h
    · omega
    · have hbounds := ih h
      omega

/-- All characters of a text that come where the condition holds count. -/
theorem countP_charStarts_eq_length {p : Nat → Bool} {offset : Nat} {text : List Char}
    (h : ∀ start, offset ≤ start → start < offset + byteLength text → p start) :
    (charStarts offset text).countP p = text.length := by
  rw [← length_charStarts offset text, List.countP_eq_length]
  intro start hstart
  obtain ⟨hle, hlt⟩ := bounds_of_mem_charStarts hstart
  exact h start hle hlt

/-- No character of a text counts that comes where the condition fails. -/
theorem countP_charStarts_eq_zero {p : Nat → Bool} {offset : Nat} {text : List Char}
    (h : ∀ start, offset ≤ start → start < offset + byteLength text → ¬p start) :
    (charStarts offset text).countP p = 0 := by
  rw [List.countP_eq_zero]
  intro start hstart
  obtain ⟨hle, hlt⟩ := bounds_of_mem_charStarts hstart
  exact h start hle hlt

/-! ### The lines of a table -/

namespace LineTable

/-- A line of a source as it is cut out: what comes before it, its characters, and the newline or
the end of the source behind it. -/
structure Cuts (source : List Char) (line : Line) (before own after : List Char) : Prop where
  split : source = before ++ (own ++ after)
  opens : before = [] ∨ ∃ front, before = front ++ ['\n']
  single : '\n' ∉ own
  closes : after = [] ∨ ∃ rest, after = '\n' :: rest
  start : line.start = byteLength before
  text : line.text = own.rdropWhile isLineEnd

/-- Every line of a table that is built on from an open line is there already or cut out of the
open line and the characters to come. -/
theorem mem_lines_build {lines : List Line} {line : Line} (reversed text : List Char)
    (before : List Char) (hopens : before = [] ∨ ∃ front, before = front ++ ['\n'])
    (hopen : '\n' ∉ reversed)
    (h : line ∈ (build lines (byteLength before) (byteLength (before ++ reversed.reverse)) reversed
      text).lines) :
    line ∈ lines ∨
      ∃ front own after, Cuts (before ++ (reversed.reverse ++ text)) line front own after := by
  induction text generalizing lines before reversed with
  | nil =>
    rw [build, List.mem_reverse, List.mem_cons] at h
    refine h.symm.imp id ?_
    rintro rfl
    refine ⟨before, reversed.reverse, [], rfl, hopens, ?_, .inl rfl, rfl, ?_⟩
    · rwa [List.mem_reverse]
    · rw [List.rdropWhile, List.reverse_reverse]
      rfl
  | cons c rest ih =>
    rw [build] at h
    split at h
    next hc =>
      subst hc
      have hnext : byteLength (before ++ reversed.reverse) + '\n'.utf8Size =
          byteLength (before ++ reversed.reverse ++ ['\n']) := by
        rw [Cursor.byteLength_append (before ++ reversed.reverse) ['\n']]
        rfl
      rw [hnext] at h
      have hmore := ih [] (before ++ reversed.reverse ++ ['\n']) (.inr ⟨_, rfl⟩)
        List.not_mem_nil (by rwa [List.reverse_nil, List.append_nil])
      have hsource : before ++ reversed.reverse ++ ['\n'] ++ ([].reverse ++ rest) =
          before ++ (reversed.reverse ++ '\n' :: rest) := by simp
      rw [hsource, List.mem_cons, or_assoc] at hmore
      rcases hmore with rfl | hmore | hmore
      · refine .inr ⟨before, reversed.reverse, '\n' :: rest, rfl, hopens, ?_, .inr ⟨rest, rfl⟩,
          rfl, ?_⟩
        · rwa [List.mem_reverse]
        · rw [List.rdropWhile, List.reverse_reverse]
          rfl
      · exact .inl hmore
      · exact .inr hmore
    next hc =>
      have hnext : byteLength (before ++ reversed.reverse) + c.utf8Size =
          byteLength (before ++ (c :: reversed).reverse) := by
        rw [List.reverse_cons, ← List.append_assoc, Cursor.byteLength_append _ [c]]
        rfl
      rw [hnext] at h
      have hmore := ih (c :: reversed) before hopens
        (List.not_mem_cons_of_ne_of_not_mem (Ne.symm hc) hopen) h
      rwa [List.reverse_cons, List.append_assoc] at hmore

theorem exists_cuts {source : String} {line : Line} (h : line ∈ (ofString source).lines) :
    ∃ before own after, Cuts source.toList line before own after :=
  (mem_lines_build [] source.toList [] (.inl rfl) List.not_mem_nil h).resolve_left
    List.not_mem_nil

/-- The starts of the lines up to one that is cut out come first, as many as there are newlines
before it, and its own. -/
theorem Cuts.exists_prefix {source : String} {line : Line} {before own after : List Char}
    (h : Cuts source.toList line before own after) : ∃ front,
      (ofString source).starts = front ++ [byteLength before] ++
        behindNewlines (byteLength before) (own ++ after) ∧
      front.length = before.count '\n' := by
  obtain ⟨front, hfront, hlength⟩ := behindNewlines_of_line h.opens
  refine ⟨front, ?_, hlength⟩
  rw [← hfront, (starts_ofString source).1, h.split, behindNewlines_append, Nat.zero_add,
    List.cons_append]

theorem Cuts.startOf?_iff {source : String} {line : Line} {before own after : List Char}
    (h : Cuts source.toList line before own after) (number : Nat) :
    (ofString source).startOf? number = some line.start ↔ number = before.count '\n' + 1 := by
  obtain ⟨front, hfront, hlength⟩ := h.exists_prefix
  rw [h.start, startOf?_eq_some ⟨_, hfront.symm⟩, List.length_append, hlength]
  rfl

/-- The line that an offset is located in is in the table, at the number of the newlines before it.
The offset is between its start and the newline behind it, or the end. -/
theorem exists_located (source : String) (offset : Nat) : ∃ line before own after,
    Cuts source.toList line before own after ∧
      (ofString source).lineText? (before.count '\n' + 1) = some line.text ∧
      ∃ column, (ofString source).locate offset = ⟨before.count '\n' + 1, column⟩ ∧
        min offset source.utf8ByteSize = byteLength before + column ∧
        column ≤ byteLength own := by
  obtain ⟨start, hgreatest, hline, hcolumn⟩ := bisects_ofString source offset
  generalize (ofString source).locate offset = location at hline hcolumn
  have hstart := (hline location.line).mpr rfl
  rw [startOf?, starts, List.getElem?_map] at hstart
  split at hstart
  next => cases hstart
  next hne =>
    obtain ⟨line, hat, rfl⟩ := Option.map_eq_some_iff.mp hstart
    obtain ⟨before, own, after, hcuts⟩ := exists_cuts (List.mem_of_getElem? hat)
    have hnumber : location.line = before.count '\n' + 1 :=
      (hcuts.startOf?_iff _).mp ((hline _).mpr rfl)
    have hle := hgreatest.1.2
    rw [hcuts.start] at hle hcolumn
    refine ⟨line, before, own, after, hcuts, ?_, location.column, ?_, by omega, ?_⟩
    · rw [← hnumber, lineText?, if_neg hne, hat]
      rfl
    · rw [← hnumber]
    -- behind the line is the end of the source, or a line that starts past the offset
    have hlength := TokenStream.byteLength_toList source
    rw [hcuts.split, Cursor.byteLength_append, Cursor.byteLength_append] at hlength
    rcases hcuts.closes with rfl | ⟨rest, rfl⟩
    · rw [byteLength] at hlength
      omega
    · by_contra hpast
      have hnext : IsLineStart source.toList (byteLength (before ++ own ++ ['\n'])) :=
        .inr ⟨before ++ own, rest, by rw [hcuts.split, List.append_assoc], rfl⟩
      have hsize : byteLength (before ++ own ++ ['\n']) =
          byteLength before + byteLength own + 1 := by
        rw [Cursor.byteLength_append, Cursor.byteLength_append]
        rfl
      have hlast := hgreatest.2 ⟨hnext, by omega⟩
      rw [hcuts.start, hsize] at hlast
      omega

end LineTable

namespace Diagnostic

open LineTable

/-! ### Cutting texts at bytes -/

theorem splitAtByte?_append (front back : List Char) :
    splitAtByte? (front ++ back) (byteLength front) = some (front, back) := by
  induction front with
  | nil => cases back <;> rfl
  | cons c rest ih =>
    have hpos := c.utf8Size_pos
    obtain ⟨count, hcount⟩ : ∃ count, byteLength (c :: rest) = count + 1 :=
      Nat.exists_eq_succ_of_ne_zero (by rw [byteLength]; omega)
    have hsize : count + 1 = c.utf8Size + byteLength rest := hcount.symm
    rw [hcount, List.cons_append, splitAtByte?, if_neg (by omega), hsize, Nat.add_sub_cancel_left,
      ih]
    rfl

/-- The characters in the bytes from one offset up to another. There are none to give if one of the
offsets is inside a character or past the end, or they come in the wrong order. -/
def slice? (text : List Char) (start stop : Nat) : Option (List Char) := do
  if stop < start then none else
    let (_, rest) ← splitAtByte? text start
    let (kept, _) ← splitAtByte? rest (stop - start)
    return kept

theorem slice?_append (front kept back : List Char) :
    slice? (front ++ (kept ++ back)) (byteLength front) (byteLength front + byteLength kept) =
      some kept := by
  have hle := Nat.not_lt.mpr (Nat.le_add_right (byteLength front) (byteLength kept))
  simp only [slice?, if_neg hle, splitAtByte?_append, Nat.add_sub_cancel_left, Option.bind_eq_bind,
    Option.bind_some]
  rfl

/-! ### A rendering that may fail -/

/-- The printed page: the title, the line, the carets and the message. -/
def page (filename label message : String) (line : Nat) (text : List Char) (indent width : Nat) :
    String :=
  "  File \"" ++ filename ++ s!"\", line {line}\n" ++
    ("    " ++ String.ofList text ++ "\n    " ++ String.ofList (List.replicate indent ' ') ++
      String.ofList (List.replicate width '^') ++ "\n") ++ label ++ ": " ++ message

/-- The line and the column of an offset, from the offsets at which the lines of the source start.
Fails if there is no line to be found, or one that starts past the offset. -/
def locate? (source : List Char) (offset : Nat) : Option Location :=
  let starts := 0 :: behindNewlines 0 source
  let offset := min offset (byteLength source)
  let index := (starts.takeWhile (· ≤ offset)).length - 1
  match starts[index]? with
  | some start => if start ≤ offset then some ⟨index + 1, offset - start⟩ else none
  | none => none

/-- The text of a line, cut out of the source between the starts of the line and of the next. Fails
if there is no such line, or it cannot be cut out. -/
def cutLine? (source : List Char) (line : Nat) : Option (List Char) :=
  let starts := 0 :: behindNewlines 0 source
  match starts[line - 1]? with
  | some start =>
    (slice? source start (starts[line]?.getD (byteLength source))).map (·.rdropWhile isLineEnd)
  | none => none

/-- The page for a span, by steps that may fail. -/
def render? (source filename : String) (span : Span) (label message : String) : Option String :=
  match locate? source.toList span.start with
  | none => none
  | some location =>
    match cutLine? source.toList location.line with
    | none => none
    | some text =>
      let column := min location.column (byteLength text)
      let stop := min (span.stop - span.start + column) (byteLength text)
      let (indent, width) := underline text column stop
      some (page filename label message location.line text indent width)

theorem render_eq_page {table : LineTable} {line column : Nat} {span : Span} {text : List Char}
    (hlocate : table.locate span.start = ⟨line, column⟩) (htext : table.lineText? line = some text)
    (filename label message : String) :
    let column := min column (byteLength text)
    let stop := min (span.stop - span.start + column) (byteLength text)
    render table filename span label message = page filename label message line text
      (underline text column stop).1 (underline text column stop).2 := by
  simp only [render, hlocate, htext]
  rfl

theorem locate?_eq (source : String) (offset : Nat) :
    locate? source.toList offset = some ((ofString source).locate offset) := by
  obtain ⟨start, hgreatest, hline, hcolumn⟩ := bisects_ofString source offset
  obtain ⟨hstarts, hlength⟩ := starts_ofString source
  have hcount : ((ofString source).locate offset).line =
      ((ofString source).starts.takeWhile (· ≤ min offset source.utf8ByteSize)).length := by
    rw [locate_eq, hlength]
  have hstart := (hline _).mpr rfl
  rw [startOf?] at hstart
  split at hstart
  next => cases hstart
  next hne =>
    rw [locate?, ← hstarts, TokenStream.byteLength_toList, ← hcount, hstart]
    dsimp only
    rw [if_pos hgreatest.1.2, Nat.sub_add_cancel (Nat.pos_of_ne_zero hne), ← hcolumn]

theorem cutLine?_eq {source : String} {line : Line} {before own after : List Char}
    (h : Cuts source.toList line before own after) :
    cutLine? source.toList (before.count '\n' + 1) = some line.text := by
  obtain ⟨front, hstarts, hlength⟩ := h.exists_prefix
  rw [(starts_ofString source).1] at hstarts
  have hown : behindNewlines (byteLength before) own = [] := by
    rw [← List.length_eq_zero_iff, length_behindNewlines, List.count_eq_zero]
    exact h.single
  have hat : (0 :: behindNewlines 0 source.toList)[before.count '\n']? =
      some (byteLength before) := by
    rw [hstarts, ← hlength, List.append_assoc, List.getElem?_append_right (Nat.le_refl _),
      Nat.sub_self]
    rfl
  have hnext : (0 :: behindNewlines 0 source.toList)[before.count '\n' + 1]? =
      (behindNewlines (byteLength before + byteLength own) after)[0]? := by
    rw [hstarts, behindNewlines_append, hown, List.nil_append, ← hlength,
      List.getElem?_append_right (by simp)]
    simp
  rw [cutLine?, Nat.add_sub_cancel, hat, hnext, h.text]
  dsimp only
  rcases h.closes with rfl | ⟨rest, rfl⟩
  · have hstop : byteLength source.toList = byteLength before + byteLength own := by
      rw [h.split, List.append_nil, Cursor.byteLength_append]
    rw [behindNewlines, List.getElem?_nil, Option.getD_none, hstop, h.split, slice?_append]
    rfl
  · have hsplit : source.toList = before ++ ((own ++ ['\n']) ++ rest) := by
      rw [h.split, List.append_assoc own, List.singleton_append]
    have hstop : byteLength before + byteLength own + '\n'.utf8Size =
        byteLength before + byteLength (own ++ ['\n']) := by
      rw [Cursor.byteLength_append own, Nat.add_assoc]
      rfl
    rw [behindNewlines, if_pos rfl, List.getElem?_cons_zero, Option.getD_some, hstop, hsplit,
      slice?_append, Option.map_some, List.rdropWhile_concat_pos _ _ _ rfl]

theorem render?_eq (source filename : String) (span : Span) (label message : String) :
    render? source filename span label message =
      some (render (ofString source) filename span label message) := by
  obtain ⟨line, before, own, after, hcuts, htext, column, hlocate, -, -⟩ :=
    exists_located source span.start
  rw [render?, locate?_eq, hlocate]
  dsimp only
  rw [cutLine?_eq hcuts, render_eq_page hlocate htext]

theorem underline_append (front kept back : List Char) :
    underline (front ++ (kept ++ back)) (byteLength front) (byteLength front + byteLength kept) =
      (front.length, max 1 kept.length) := by
  rw [underline, splitAtByte?_append]
  dsimp only
  rw [Nat.add_sub_cancel_left, splitAtByte?_append]

/-! ### Characters of a line that a span has -/

/-- The number of characters that start before the span, in a text that comes at the offset. -/
def charsBefore (offset : Nat) (text : List Char) (span : Span) : Nat :=
  (charStarts offset text).countP fun start => start < span.start

/-- The number of characters that start in the span, in a text that comes at the offset. -/
def charsWithin (offset : Nat) (text : List Char) (span : Span) : Nat :=
  (charStarts offset text).countP fun start => span.start ≤ start ∧ start < span.stop

/-- Of two texts that begin the same the first, or what the second has of it, begins the second. -/
theorem exists_clip {front other text : List Char} (h : front <+: text) (ho : other <+: text) :
    ∃ kept more, other = kept ++ more ∧
      byteLength kept = min (byteLength front) (byteLength other) ∧ (kept = front ∨ more = []) := by
  by_cases hle : byteLength front ≤ byteLength other
  · obtain ⟨more, rfl⟩ := prefix_of_byteLength_le h ho hle
    exact ⟨front, more, rfl, (Nat.min_eq_left hle).symm, .inl rfl⟩
  · exact ⟨other, [], (List.append_nil _).symm,
      (Nat.min_eq_right (Nat.le_of_not_le hle)).symm, .inr rfl⟩

/-- The underline of a text, where the characters before the span begin as the text does and the
span goes on as the text does. -/
theorem underline_eq {text ahead marked back : List Char} (offset : Nat)
    (htext : text <+: ahead ++ (marked ++ back)) :
    let span : Span := ⟨offset + byteLength ahead, offset + byteLength ahead + byteLength marked⟩
    let column := min (byteLength ahead) (byteLength text)
    let stop := min (span.stop - span.start + column) (byteLength text)
    underline text column stop =
        (charsBefore offset text span, max 1 (charsWithin offset text span)) ∧
      charsBefore offset text span + charsWithin offset text span ≤ text.length := by
  intro span column stop
  obtain ⟨front, rest, rfl, hfront, hwhole⟩ :=
    exists_clip (List.prefix_append ahead (marked ++ back)) htext
  -- what is left of the text goes on as the span does, if anything is left
  obtain ⟨kept, more, rfl, hkept, hend⟩ : ∃ kept more, rest = kept ++ more ∧
      byteLength kept = min (byteLength marked) (byteLength rest) ∧
      (kept = marked ∨ more = []) := by
    rcases hwhole with rfl | rfl
    · exact exists_clip (List.prefix_append marked back) ((List.prefix_append_right_inj _).mp htext)
    · exact ⟨[], [], rfl, by simp [byteLength], .inr rfl⟩
  have hsize := Cursor.byteLength_append front (kept ++ more)
  have hrest := Cursor.byteLength_append kept more
  have hwhole : byteLength front = byteLength ahead ∨ byteLength (kept ++ more) = 0 :=
    hwhole.imp (congrArg byteLength) (congrArg byteLength)
  have hend : byteLength kept = byteLength marked ∨ byteLength more = 0 :=
    hend.imp (congrArg byteLength) (congrArg byteLength)
  have hstart : span.start = offset + byteLength ahead := rfl
  have hspan : span.stop = offset + byteLength ahead + byteLength marked := rfl
  have hcolumn : column = byteLength front := hfront.symm
  have hstop : stop = byteLength front + byteLength kept := by
    show min (span.stop - span.start + column) (byteLength (front ++ (kept ++ more))) = _
    omega
  have hbefore : charsBefore offset (front ++ (kept ++ more)) span = front.length := by
    rw [charsBefore, charStarts_append, List.countP_append, countP_charStarts_eq_length,
      countP_charStarts_eq_zero, Nat.add_zero]
    all_goals
      intro start hle hlt
      rw [decide_eq_true_eq]
      omega
  have hwithin : charsWithin offset (front ++ (kept ++ more)) span = kept.length := by
    rw [charsWithin, charStarts_append, charStarts_append, List.countP_append, List.countP_append,
      countP_charStarts_eq_zero, countP_charStarts_eq_length, countP_charStarts_eq_zero,
      Nat.add_zero, Nat.zero_add]
    all_goals
      intro start hle hlt
      rw [decide_eq_true_eq]
      omega
  rw [hcolumn, hstop, hbefore, hwithin, underline_append]
  refine ⟨rfl, ?_⟩
  rw [List.length_append, List.length_append]
  omega

/-! ### Spans between characters -/

/-- The line that an offset is in: it begins the source or comes behind a newline, and goes on to a
newline or the end. The text is the line without the carriage returns at its end. -/
structure LineAt (source : List Char) (offset : Nat) (before text : List Char) : Prop where
  opens : before = [] ∨ ∃ front, before = front ++ ['\n']
  single : '\n' ∉ text
  trimmed : text.getLast? ≠ some '\r'
  start_le : byteLength before ≤ offset
  closes : ∃ returns after,
    source = before ++ (text ++ (List.replicate returns '\r' ++ after)) ∧
      (after = [] ∨ ∃ rest, after = '\n' :: rest) ∧
      offset ≤ byteLength (before ++ (text ++ List.replicate returns '\r'))

end Diagnostic

/-- The span is in order, and begins and ends between characters of the source. -/
structure Span.Within (span : Span) (source : String) : Prop where
  ordered : span.start ≤ span.stop
  start : String.Pos.Raw.IsValid source ⟨span.start⟩
  stop : String.Pos.Raw.IsValid source ⟨span.stop⟩

theorem exists_prefix_of_isValid {source : String} {offset : Nat}
    (h : String.Pos.Raw.IsValid source ⟨offset⟩) :
    ∃ front, front <+: source.toList ∧ offset = byteLength front := by
  obtain ⟨front, back, rfl, hoffset⟩ := String.Pos.Raw.isValid_iff_exists_append.mp h
  refine ⟨front.toList, ⟨back.toList, String.toList_append.symm⟩, ?_⟩
  rw [TokenStream.byteLength_toList]
  exact congrArg String.Pos.Raw.byteIdx hoffset

/-- The characters before, in and behind a span. -/
theorem Span.Within.exists_marked {span : Span} {source : String} (h : span.Within source) :
    ∃ front marked back, source.toList = front ++ (marked ++ back) ∧
      span = ⟨byteLength front, byteLength front + byteLength marked⟩ := by
  obtain ⟨front, hfront, hstart⟩ := exists_prefix_of_isValid h.start
  obtain ⟨through, hthrough, hstop⟩ := exists_prefix_of_isValid h.stop
  have hordered := h.ordered
  rw [hstart, hstop] at hordered
  obtain ⟨marked, rfl⟩ := prefix_of_byteLength_le hfront hthrough hordered
  obtain ⟨back, hback⟩ := hthrough
  refine ⟨front, marked, back, by rw [← hback, List.append_assoc], ?_⟩
  rw [← Cursor.byteLength_append, ← hstart, ← hstop]

namespace Diagnostic

open LineTable

theorem lineAt_of_cuts {source : List Char} {line : Line} {before own after : List Char}
    (h : Cuts source line before own after) {offset column : Nat}
    (hoffset : offset = byteLength before + column) (hcolumn : column ≤ byteLength own) :
    LineAt source offset before line.text := by
  have hsplit : line.text ++ own.rtakeWhile isLineEnd = own := by
    rw [h.text]
    exact List.rdropWhile_append_rtakeWhile
  have hreturns : own.rtakeWhile isLineEnd =
      List.replicate (own.rtakeWhile isLineEnd).length '\r' := by
    refine List.eq_replicate_of_mem fun c hc => ?_
    have hend := List.mem_rtakeWhile_imp hc
    have hne : c ≠ '\n' := by
      rintro rfl
      exact h.single (hsplit ▸ List.mem_append_right _ hc)
    simpa [isLineEnd, hne] using hend
  refine ⟨h.opens, fun hin => h.single (hsplit ▸ List.mem_append_left _ hin), ?_, ?_,
    (own.rtakeWhile isLineEnd).length, after, ?_, h.closes, ?_⟩
  · intro hlast
    rw [h.text] at hlast
    have hne : own.rdropWhile isLineEnd ≠ [] := fun he => by
      rw [he] at hlast
      cases hlast
    have hkept := List.rdropWhile_last_not isLineEnd own hne
    rw [List.getLast?_eq_some_getLast hne] at hlast
    exact hkept (Option.some.inj hlast ▸ rfl)
  · rw [hoffset]
    exact Nat.le_add_right _ _
  · rw [← hreturns, ← List.append_assoc line.text, hsplit, h.split]
  · rw [← hreturns, hsplit, Cursor.byteLength_append, hoffset]
    exact Nat.add_le_add_left hcolumn _

/-- For a span anywhere the page is printed by steps none of which fails. For one between
characters it shows the line that the span starts in, and below it one caret for each character
that the line and the span have, at least one, behind as many blanks as there are characters of
the line before the span. -/
theorem underlines_ofString (source filename label message : String) :
    (∀ span, render? source filename span label message =
      some (render (ofString source) filename span label message)) ∧
    ∀ span : Span, span.Within source → ∃ before text,
      LineAt source.toList span.start before text ∧
      render (ofString source) filename span label message =
        page filename label message (before.count '\n' + 1) text
          (charsBefore (byteLength before) text span)
          (max 1 (charsWithin (byteLength before) text span)) ∧
      charsBefore (byteLength before) text span +
        max 1 (charsWithin (byteLength before) text span) ≤ text.length + 1 := by
  refine ⟨fun span => render?_eq source filename span label message, fun span hspan => ?_⟩
  obtain ⟨front, marked, back, hsource, rfl⟩ := hspan.exists_marked
  obtain ⟨line, before, own, after, hcuts, htext, column, hlocate, hmin, hcolumn⟩ :=
    exists_located source (byteLength front)
  have hwithin : byteLength front ≤ source.utf8ByteSize := by
    rw [← TokenStream.byteLength_toList, hsource, Cursor.byteLength_append]
    exact Nat.le_add_right _ _
  rw [Nat.min_eq_left hwithin] at hmin
  obtain ⟨ahead, rfl⟩ : before <+: front :=
    prefix_of_byteLength_le ⟨own ++ after, hcuts.split.symm⟩ ⟨marked ++ back, hsource.symm⟩
      (by rw [hmin]; exact Nat.le_add_right _ _)
  obtain rfl : column = byteLength ahead := by
    rw [Cursor.byteLength_append] at hmin
    omega
  have hgoesOn : line.text <+: ahead ++ (marked ++ back) := by
    have hrest := hcuts.split.symm.trans (hsource.trans (List.append_assoc ..))
    rw [← List.append_cancel_left hrest, hcuts.text]
    exact (List.rdropWhile_prefix _ _).trans (List.prefix_append _ _)
  obtain ⟨hunderline, hlength⟩ := underline_eq (byteLength before) hgoesOn
  rw [Cursor.byteLength_append] at hlocate ⊢
  refine ⟨before, line.text, lineAt_of_cuts hcuts rfl hcolumn, ?_, by omega⟩
  rw [render_eq_page hlocate htext, hunderline]

/-- The span is that of a character of two bytes, in a line that a carriage return ends. -/
theorem underlines_wide_character : Span.Within ⟨2, 4⟩ "a é\r\nb" ∧ ∃ before text,
    LineAt "a é\r\nb".toList 2 before text ∧
    render (ofString "a é\r\nb") "t.gb" ⟨2, 4⟩ "CompileError" "undefined variable é" =
      page "t.gb" "CompileError" "undefined variable é" (before.count '\n' + 1) text
        (charsBefore (byteLength before) text ⟨2, 4⟩)
        (max 1 (charsWithin (byteLength before) text ⟨2, 4⟩)) ∧
    charsBefore (byteLength before) text ⟨2, 4⟩ +
      max 1 (charsWithin (byteLength before) text ⟨2, 4⟩) ≤ text.length + 1 :=
  have hwithin : Span.Within ⟨2, 4⟩ "a é\r\nb" := ⟨by decide, by decide, by decide⟩
  ⟨hwithin, (underlines_ofString "a é\r\nb" "t.gb" "CompileError" "undefined variable é").2 _
    hwithin⟩

/-- A span of which the line has nothing, since it starts in what ends the line. -/
example : render (ofString "a é\r\nb") "t.gb" ⟨5, 7⟩ "E" "m" =
    "  File \"t.gb\", line 1\n    a é\n       ^\nE: m" := by decide

end Diagnostic

end Simian
