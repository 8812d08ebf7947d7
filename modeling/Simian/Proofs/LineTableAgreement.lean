import Mathlib.Data.List.DropRight
import Mathlib.Data.List.TakeWhile
import Mathlib.Order.Bounds.Defs
import Simian.Diagnostic
import Simian.Proofs.ErrorPlaces

/-!
# The line table agrees with the lexer

A line table is made from the newlines of a source at once, the positions of tokens are counted
character by character. Both come to the same: an offset is located in the line that starts last
of those that start no later, and the start of a token in the line of its position, behind as many
characters as its column says. Only from 4 GiB on are they apart (`LineTable.not_agrees_of_cut`),
because a span has no room for the offset of a token there.
-/
namespace Simian

/-- A text ends with what its last line has of it. The position behind it counts the newlines
before this line and the characters in it. -/
theorem Position.exists_behind (text : List Char) :
    ∃ before own, text = before ++ own ∧ '\n' ∉ own ∧
      (before = [] ∨ ∃ front, before = front ++ ['\n']) ∧
      behind text = ⟨before.count '\n' + 1, own.length + 1⟩ := by
  have hsplit := List.rdropWhile_append_rtakeWhile (p := (· ≠ '\n')) (l := text)
  have hown : '\n' ∉ text.rtakeWhile (· ≠ '\n') := by
    intro hin
    have hne := List.mem_rtakeWhile_imp hin
    exact of_decide_eq_true hne rfl
  refine ⟨text.rdropWhile (· ≠ '\n'), text.rtakeWhile (· ≠ '\n'), hsplit.symm, hown, ?_, ?_⟩
  · refine or_iff_not_imp_left.mpr fun hne => ?_
    have hlast := List.rdropWhile_last_not _ _ hne
    obtain ⟨front, c, hfront⟩ := (List.eq_nil_or_concat' _).resolve_left hne
    simp only [hfront, List.getLast_append_singleton, decide_eq_true_eq, not_not] at hlast
    exact ⟨front, by rw [hfront, hlast]⟩
  · have hcount : text.count '\n' = (text.rdropWhile (· ≠ '\n')).count '\n' := by
      conv_lhs => rw [← hsplit, List.count_append, List.count_eq_zero.mpr hown, Nat.add_zero]
    rw [behind, hcount, List.rtakeWhile, List.length_reverse, Nat.add_comm, Nat.add_comm 1]

/-- The token behind blanks has the position behind them. Its span starts at the number of bytes
read before it, cut to 32 bits. -/
theorem Token.scan_behind_blanks {cursor : Cursor} {blanks rest : List Char} {c : Char}
    (h : cursor.ahead = blanks ++ c :: rest) (hblanks : ∀ c ∈ blanks, Text.isBlank c = true)
    (hc : Text.isBlank c = false) (hcomment : ¬(c = '/' ∧ rest.head? = some '/')) :
    ∃ start, cursor.Reads blanks start ∧ (scan cursor).1.token.position = start.position ∧
      (scan cursor).1.token.span.start = start.offset % UInt32.size := by
  have hskip : skipTrivia false cursor cursor.ahead = cursor.past blanks (c :: rest) := by
    rw [h]
    refine skipTrivia_blanks hblanks (fun first more he => ?_) cursor
    cases he
    exact ⟨hc, hcomment⟩
  have hahead := Cursor.ahead_past h
  obtain ⟨more, hcut⟩ := cut_scanFrom hahead
  refine ⟨cursor.past blanks (c :: rest), Cursor.reads_past h, ?_⟩
  rw [scan, hskip, hahead, hcut.position_eq, hcut.span_eq]
  exact ⟨rfl, rfl⟩

/-! ### Where lines start -/

/-- A line starts at the first byte of a text and behind each newline. -/
def IsLineStart (text : List Char) (offset : Nat) : Prop :=
  offset = 0 ∨ ∃ front back, text = front ++ '\n' :: back ∧ offset = byteLength (front ++ ['\n'])

namespace LineTable

/-- The offsets behind the newlines of a text that comes at the offset. -/
def behindNewlines (offset : Nat) : List Char → List Nat
  | [] => []
  | c :: rest =>
    let next := offset + c.utf8Size
    if c = '\n' then next :: behindNewlines next rest else behindNewlines next rest

theorem behindNewlines_append (offset : Nat) (front back : List Char) :
    behindNewlines offset (front ++ back) =
      behindNewlines offset front ++ behindNewlines (offset + byteLength front) back := by
  induction front generalizing offset with
  | nil => rfl
  | cons c rest ih =>
    rw [List.cons_append, behindNewlines, behindNewlines, byteLength, ← Nat.add_assoc, ih]
    split
    · rfl
    · rfl

theorem length_behindNewlines (offset : Nat) (text : List Char) :
    (behindNewlines offset text).length = text.count '\n' := by
  induction text generalizing offset with
  | nil => rfl
  | cons c rest ih =>
    rw [behindNewlines]
    split
    next hc => rw [hc, List.count_cons_self, List.length_cons, ih]
    next hc => rw [List.count_cons_of_ne hc, ih]

theorem mem_behindNewlines {offset start : Nat} {text : List Char} :
    start ∈ behindNewlines offset text ↔
      ∃ front back, text = front ++ '\n' :: back ∧
        start = offset + byteLength (front ++ ['\n']) := by
  induction text generalizing offset with
  | nil => simp [behindNewlines]
  | cons c rest ih =>
    have hlater : start ∈ behindNewlines (offset + c.utf8Size) rest ↔
        ∃ front back, rest = front ++ '\n' :: back ∧
          start = offset + byteLength (c :: front ++ ['\n']) := by
      rw [ih]
      simp only [List.cons_append, byteLength, Nat.add_assoc]
    rw [behindNewlines]
    constructor
    · intro h
      have hcases : c = '\n' ∧ start = offset + c.utf8Size ∨
          start ∈ behindNewlines (offset + c.utf8Size) rest := by
        split at h
        next hc => exact (List.mem_cons.mp h).imp (fun he => ⟨hc, he⟩) id
        next => exact .inr h
      rcases hcases with ⟨rfl, rfl⟩ | h
      · exact ⟨[], rest, rfl, rfl⟩
      · obtain ⟨front, back, rfl, hstart⟩ := hlater.mp h
        exact ⟨c :: front, back, rfl, hstart⟩
    · rintro ⟨front, back, htext, hstart⟩
      cases front with
      | nil =>
        obtain ⟨rfl, rfl⟩ := List.cons.inj htext
        rw [if_pos rfl, hstart]
        exact List.mem_cons_self
      | cons first front =>
        obtain ⟨rfl, hrest⟩ := List.cons.inj htext
        have h := hlater.mpr ⟨front, back, hrest, hstart⟩
        split
        · exact List.mem_cons_of_mem _ h
        · exact h

/-- Offsets behind newlines come behind the first offset, each behind the one before. -/
theorem pairwise_behindNewlines (offset : Nat) (text : List Char) :
    (offset :: behindNewlines offset text).Pairwise (· < ·) := by
  induction text generalizing offset with
  | nil => exact List.pairwise_singleton _ _
  | cons c rest ih =>
    have hlt : offset < offset + c.utf8Size := Nat.lt_add_of_pos_right c.utf8Size_pos
    have hrest := ih (offset + c.utf8Size)
    have hall : (offset :: (offset + c.utf8Size) ::
        behindNewlines (offset + c.utf8Size) rest).Pairwise (· < ·) := by
      refine .cons (List.forall_mem_cons.mpr ⟨hlt, fun start hs => ?_⟩) hrest
      exact Nat.lt_trans hlt (List.rel_of_pairwise_cons hrest hs)
    rw [behindNewlines]
    split
    · exact hall
    · exact hall.sublist (.cons_cons _ (List.sublist_cons_self _ _))

/-- The offsets at which the lines start. -/
def starts (table : LineTable) : List Nat := table.lines.map Line.start

/-- The offset at which the line starts, counted from one. -/
def startOf? (table : LineTable) (line : Nat) : Option Nat :=
  if line = 0 then none else table.starts[line - 1]?

theorem starts_build (lines : List Line) (start offset : Nat) (reversed text : List Char) :
    (build lines start offset reversed text).starts =
        (lines.map Line.start).reverse ++ start :: behindNewlines offset text ∧
      (build lines start offset reversed text).length = offset + byteLength text := by
  induction text generalizing lines start offset reversed with
  | nil =>
    rw [build]
    exact ⟨by simp [starts, close, behindNewlines], rfl⟩
  | cons c rest ih =>
    rw [build, behindNewlines, byteLength, ← Nat.add_assoc]
    split
    · obtain ⟨hstarts, hlength⟩ := ih (close start reversed :: lines) (offset + c.utf8Size)
        (offset + c.utf8Size) []
      refine ⟨?_, hlength⟩
      rw [hstarts, List.map_cons, List.reverse_cons, List.append_assoc]
      rfl
    · exact ih lines start (offset + c.utf8Size) (c :: reversed)

theorem starts_ofString (source : String) :
    (ofString source).starts = 0 :: behindNewlines 0 source.toList ∧
      (ofString source).length = source.utf8ByteSize := by
  obtain ⟨hstarts, hlength⟩ := starts_build [] 0 0 [] source.toList
  refine ⟨hstarts, ?_⟩
  rw [← TokenStream.byteLength_toList, ← Nat.zero_add (byteLength _)]
  exact hlength

/-- Lines are located by where they start. -/
theorem locate_eq (table : LineTable) (offset : Nat) :
    table.locate offset =
      ⟨(table.starts.takeWhile (· ≤ min offset table.length)).length, min offset table.length -
        (table.starts.takeWhile (· ≤ min offset table.length)).getLast?.getD 0⟩ := by
  unfold starts locate
  rw [List.takeWhile_map, List.length_map, List.getLast?_map]
  rfl

/-! ### The line that starts last -/

/-- In ascending order, all that the limit bounds comes first. -/
theorem takeWhile_le {starts : List Nat} (h : starts.Pairwise (· < ·)) (limit : Nat) :
    starts.takeWhile (· ≤ limit) = starts.filter (· ≤ limit) := by
  induction starts with
  | nil => rfl
  | cons start later ih =>
    rw [List.takeWhile_cons, List.filter_cons, ih h.of_cons]
    split
    · rfl
    next hpast =>
      refine (List.filter_eq_nil_iff.mpr fun other hother hle => hpast ?_).symm
      have hlt := List.rel_of_pairwise_cons h hother
      exact decide_eq_true (Nat.le_of_lt (Nat.lt_of_lt_of_le hlt (of_decide_eq_true hle)))

/-- The last of what the limit bounds, in ascending order, is the greatest. -/
theorem isGreatest_of_getLast? {starts : List Nat} {limit start : Nat}
    (h : starts.Pairwise (· < ·)) (hlast : (starts.filter (· ≤ limit)).getLast? = some start) :
    IsGreatest {other | other ∈ starts ∧ other ≤ limit} start := by
  have hmem {other : Nat} : other ∈ starts.filter (· ≤ limit) ↔ other ∈ starts ∧ other ≤ limit := by
    rw [List.mem_filter, decide_eq_true_iff]
  refine ⟨hmem.mp (List.mem_of_getLast? hlast), fun other hother => ?_⟩
  have hin := hmem.mpr hother
  have hordered := h.filter (· ≤ limit)
  obtain ⟨front, hfront⟩ := List.getLast?_eq_some_iff.mp hlast
  rw [hfront] at hin hordered
  rcases List.mem_append.mp hin with hin | hin
  · exact Nat.le_of_lt (List.pairwise_append.mp hordered |>.2.2 other hin start
      List.mem_cons_self)
  · exact Nat.le_of_eq (List.mem_singleton.mp hin)

/-- The lines of a source start where the table says. -/
theorem mem_starts {source : String} {start : Nat} :
    start ∈ (ofString source).starts ↔ IsLineStart source.toList start := by
  rw [(starts_ofString source).1, List.mem_cons, mem_behindNewlines, IsLineStart]
  simp only [Nat.zero_add]

theorem pairwise_starts (source : String) : (ofString source).starts.Pairwise (· < ·) := by
  rw [(starts_ofString source).1]
  exact pairwise_behindNewlines 0 source.toList

/-- A number of a line and where it starts say the same. -/
theorem startOf?_eq_some {source : String} {front : List Nat} {start : Nat}
    (h : front ++ [start] <+: (ofString source).starts) {line : Nat} :
    (ofString source).startOf? line = some start ↔ line = (front ++ [start]).length := by
  obtain ⟨back, hback⟩ := h
  have hnodup : (ofString source).starts.Nodup := (pairwise_starts source).imp Nat.ne_of_lt
  have hat : (ofString source).starts[front.length]? = some start := by
    rw [← hback, List.append_assoc, List.getElem?_append_right (Nat.le_refl _), Nat.sub_self]
    rfl
  rw [startOf?, List.length_append, List.length_singleton, ← hat]
  constructor
  · intro h
    split at h
    · exact absurd (h.trans hat) (Option.some_ne_none start).symm
    next hpos =>
      have hlt : front.length < (ofString source).starts.length :=
        (List.getElem?_eq_some_iff.mp hat).1
      rw [(List.getElem?_inj hlt hnodup).mp h.symm, Nat.sub_add_cancel (Nat.pos_of_ne_zero hpos)]
  · rintro rfl
    rfl

/-- The table has a line that starts last of those that start no later than the offset, locates
the offset in this line, and the distance to its start is the column. -/
def Bisects (table : LineTable) (source : String) (offset : Nat) : Prop :=
  ∃ start,
    IsGreatest {start | IsLineStart source.toList start ∧ start ≤ min offset source.utf8ByteSize}
      start ∧
    (∀ line, table.startOf? line = some start ↔ line = (table.locate offset).line) ∧
    (table.locate offset).column = min offset source.utf8ByteSize - start

theorem bisects_ofString (source : String) (offset : Nat) :
    (ofString source).Bisects source offset := by
  obtain ⟨hstarts, hlength⟩ := starts_ofString source
  rw [Bisects, locate_eq, hlength]
  generalize min offset source.utf8ByteSize = limit
  obtain ⟨front, start, hfront⟩ : ∃ front start,
      (ofString source).starts.takeWhile (· ≤ limit) = front ++ [start] := by
    refine (List.eq_nil_or_concat' _).resolve_left ?_
    rw [hstarts, List.takeWhile_cons, if_pos (decide_eq_true (Nat.zero_le limit))]
    exact List.cons_ne_nil _ _
  have hprefix := List.takeWhile_prefix (l := (ofString source).starts) (· ≤ limit)
  rw [hfront] at hprefix ⊢
  refine ⟨start, ?_, fun line => startOf?_eq_some hprefix, ?_⟩
  · have hlast : ((ofString source).starts.filter (· ≤ limit)).getLast? = some start := by
      rw [← takeWhile_le (pairwise_starts source), hfront, List.getLast?_concat]
    simpa only [mem_starts] using isGreatest_of_getLast? (pairwise_starts source) hlast
  · rw [List.getLast?_concat]
    rfl

/-! ### The lines and columns of tokens -/

/-- A text that ends where a line starts is behind the starts of its lines, one for each of its
newlines. -/
theorem behindNewlines_of_line {before : List Char}
    (h : before = [] ∨ ∃ front, before = front ++ ['\n']) :
    ∃ front, 0 :: behindNewlines 0 before = front ++ [byteLength before] ∧
      front.length = before.count '\n' := by
  rcases h with rfl | ⟨front, rfl⟩
  · exact ⟨[], rfl, rfl⟩
  · refine ⟨0 :: behindNewlines 0 front, ?_, ?_⟩
    · rw [behindNewlines_append, Cursor.byteLength_append, Nat.zero_add]
      rfl
    · rw [List.length_cons, length_behindNewlines, List.count_append]
      rfl

/-- Of the lines of a source, those start no later than the limit that start in the text before
it. -/
theorem takeWhile_starts {source : String} {front back : List Char}
    (h : source.toList = front ++ back) :
    (ofString source).starts.takeWhile (· ≤ byteLength front) = 0 :: behindNewlines 0 front := by
  have hstarts : (ofString source).starts =
      (0 :: behindNewlines 0 front) ++ behindNewlines (byteLength front) back := by
    rw [(starts_ofString source).1, h, behindNewlines_append, Nat.zero_add, List.cons_append]
  have hlate := pairwise_behindNewlines (byteLength front) back
  rw [takeWhile_le (pairwise_starts source), hstarts, List.filter_append,
    List.filter_eq_self.mpr, List.filter_eq_nil_iff.mpr, List.append_nil]
  · intro start hstart hle
    exact Nat.not_le_of_lt (List.rel_of_pairwise_cons hlate hstart) (of_decide_eq_true hle)
  · intro start hstart
    refine decide_eq_true ?_
    rcases List.mem_cons.mp hstart with rfl | hstart
    · exact Nat.zero_le _
    · obtain ⟨lines, rest, rfl, rfl⟩ := mem_behindNewlines.mp hstart
      have hlength := Cursor.byteLength_append (lines ++ ['\n']) rest
      rw [← List.append_cons] at hlength
      rw [Nat.zero_add, hlength]
      exact Nat.le_add_right _ _

/-- The start of a text is located in the line and behind the characters that the position
behind the text before it counts. -/
theorem locate_byteLength {source : String} {text back : List Char}
    (h : source.toList = text ++ back) :
    ∃ before own, text = before ++ own ∧ '\n' ∉ own ∧
      (ofString source).startOf? (Position.behind text).line = some (byteLength before) ∧
      (ofString source).locate (byteLength text) =
        ⟨(Position.behind text).line, byteLength own⟩ ∧
      (Position.behind text).column = own.length + 1 := by
  obtain ⟨before, own, rfl, hown, hbefore, hbehind⟩ := Position.exists_behind text
  obtain ⟨front, hfront, hlength⟩ := behindNewlines_of_line hbefore
  have hstarts : 0 :: behindNewlines 0 (before ++ own) = front ++ [byteLength before] := by
    have hnone : behindNewlines (byteLength before) own = [] := by
      rw [← List.length_eq_zero_iff, length_behindNewlines, List.count_eq_zero]
      exact hown
    rw [behindNewlines_append, Nat.zero_add, hnone, List.append_nil, hfront]
  have hline : (Position.behind (before ++ own)).line = (front ++ [byteLength before]).length := by
    rw [hbehind, List.length_append, hlength]
    rfl
  have htaken := takeWhile_starts h
  rw [hstarts] at htaken
  refine ⟨before, own, rfl, hown, ?_, ?_, by rw [hbehind]⟩
  · exact (startOf?_eq_some (htaken ▸ List.takeWhile_prefix _)).mpr hline
  · have hle : byteLength (before ++ own) ≤ source.utf8ByteSize := by
      rw [← TokenStream.byteLength_toList, h, Cursor.byteLength_append _ back]
      exact Nat.le_add_right _ _
    rw [locate_eq, (starts_ofString source).2, Nat.min_eq_left hle, htaken, ← hline,
      List.getLast?_concat, Option.getD_some, Cursor.byteLength_append, Nat.add_sub_cancel_left]

/-- The token is located in the line of its position. The characters of this line before it take
the bytes that the column of the location says, and their number is that before the column of the
position. -/
def Agrees (table : LineTable) (source : String) (token : Token) : Prop :=
  ∃ before own back, source.toList = before ++ (own ++ back) ∧ '\n' ∉ own ∧
    table.startOf? token.position.line = some (byteLength before) ∧
    table.locate token.span.start = ⟨token.position.line, byteLength own⟩ ∧
    token.position.column = own.length + 1

/-- A token behind lines of blanks that take 4 GiB has a span that starts at the first byte, which
is in the first line. -/
theorem not_agrees_of_cut {blanks : List Char} (hblanks : ∀ c ∈ blanks, Text.isBlank c = true)
    (hline : '\n' ∈ blanks) (hcut : byteLength blanks = UInt32.size) :
    ¬(ofString (String.ofList (blanks ++ ['x']))).Agrees (String.ofList (blanks ++ ['x']))
      ((TokenStream.ofString (String.ofList (blanks ++ ['x']))).scannedAt 0).token := by
  generalize hsource : String.ofList (blanks ++ ['x']) = source
  have hlist : source.toList = blanks ++ ['x'] := by rw [← hsource, String.toList_ofList]
  rintro ⟨before, own, back, -, -, -, hlocate, -⟩
  obtain ⟨_, _, -, -, -, hfirst, -⟩ := locate_byteLength (List.nil_append source.toList).symm
  have hahead : (Cursor.ofString source).ahead = blanks ++ ['x'] := hlist
  obtain ⟨start, hreads, hposition, hstart⟩ :=
    Token.scan_behind_blanks hahead hblanks (by decide) (by decide)
  have hfollows := hreads.follows (Cursor.follows_ofList source.toList)
  have hbehind : start.behind.reverse = blanks := hreads.behind_eq
  rw [← TokenStream.call_ofString, Token.call, hposition, hstart, hfollows.position_behind,
    hfollows.offset_behind, hbehind, hcut, Nat.mod_self] at hlocate
  have hsame : (Position.behind []).line = (Position.behind blanks).line :=
    congrArg Location.line (hfirst.symm.trans hlocate)
  exact absurd (Nat.add_left_cancel hsame) (Nat.ne_of_lt (List.count_pos_iff.mpr hline))

/-- Two lines of spaces, each behind a newline. -/
def spacedLines (first second : Nat) : List Char :=
  '\n' :: List.replicate first ' ' ++ '\n' :: List.replicate second ' '

theorem isBlank_spacedLines (first second : Nat) :
    ∀ c ∈ spacedLines first second, Text.isBlank c = true := by
  have hline (count : Nat) : ∀ c ∈ '\n' :: List.replicate count ' ', Text.isBlank c = true :=
    List.forall_mem_cons.mpr ⟨by decide, Text.isBlank_spaces count⟩
  exact List.forall_mem_append.mpr ⟨hline first, hline second⟩

theorem byteLength_spacedLines (first second : Nat) :
    byteLength (spacedLines first second) = first + second + 2 := by
  have hspaces (count : Nat) : byteLength (List.replicate count ' ') = count := by
    induction count with
    | zero => rfl
    | succ count ih => rw [List.replicate_succ, byteLength, ih, Nat.add_comm]; rfl
  have hline (count : Nat) : byteLength ('\n' :: List.replicate count ' ') = count + 1 := by
    rw [byteLength, hspaces, Nat.add_comm]
    rfl
  rw [spacedLines, Cursor.byteLength_append, hline, hline]
  omega

/-- Four characters, in six bytes, come in the second line before the last character. -/
example : (ofString "a\r\néé +b").locate 9 = ⟨2, 6⟩ ∧
    Position.behind "a\r\néé +".toList = ⟨2, 5⟩ := by decide

end LineTable

end Simian
