import Simian.Proofs.Scanning

/-!
# Tokens tile their source

A source is made of the texts of its tokens with blanks and comments before, between and
behind them (`Token.Tiles`). The place of each token says where its text stands: the span in
bytes, the position in lines and characters. All that the lexer reads is followed with
`Cursor.Reads`, which ties two cursors by the characters between them, so that the offset, the
position and the literal of a token are read off its text. The spans are those offsets as long
as they fit in 32 bits (`Cursor.Fits`), which they do in a source shorter than 4 GiB.
-/
namespace Simian

/-! ### Positions -/

/-- The position behind a text: one more than the newlines in it, and one more than the characters
behind the last of them. -/
def Position.behind (text : List Char) : Position :=
  ⟨1 + text.count '\n', 1 + (text.reverse.takeWhile (· ≠ '\n')).length⟩

theorem Position.after_behind (text : List Char) (c : Char) :
    (behind text).after c = behind (text ++ [c]) := by
  unfold after behind
  split
  next hc =>
    subst hc
    simp [Nat.add_assoc]
  next hc => simp [hc, Nat.add_comm]

theorem Cursor.positionAfter_behind (before text : List Char) :
    positionAfter (.behind before) text = .behind (before ++ text) := by
  induction text generalizing before with
  | nil => rw [List.append_nil, positionAfter, List.foldl_nil]
  | cons c rest ih =>
    rw [List.append_cons, ← ih, ← Position.after_behind]
    rfl

theorem Cursor.positionAfter_origin (text : List Char) :
    positionAfter .origin text = .behind text := positionAfter_behind [] text

/-! ### What is read between two cursors -/

namespace Cursor

/-- The second cursor stands behind the characters that come first at the first cursor. -/
structure Reads (start : Cursor) (chars : List Char) (stop : Cursor) : Prop where
  ahead_eq : start.ahead = chars ++ stop.ahead
  stop_eq : stop = start.past chars stop.ahead

variable {start between stop : Cursor} {chars more rest : List Char} {c : Char}

theorem past_append (cursor : Cursor) (chars more text : List Char) :
    (cursor.past chars (more ++ text)).past more text = cursor.past (chars ++ more) text := by
  induction chars generalizing cursor with
  | nil => rfl
  | cons c rest ih =>
    rw [past, ih, List.cons_append, past, List.append_assoc]

theorem Reads.refl (cursor : Cursor) : cursor.Reads [] cursor := ⟨rfl, rfl⟩

theorem Reads.trans (h : start.Reads chars between) (hmore : between.Reads more stop) :
    start.Reads (chars ++ more) stop := by
  constructor
  · rw [h.ahead_eq, hmore.ahead_eq, List.append_assoc]
  · rw [← past_append, ← hmore.ahead_eq, ← h.stop_eq, ← hmore.stop_eq]

theorem reads_step (h : start.ahead = c :: rest) : start.Reads [c] (start.step c rest) := ⟨h, rfl⟩

theorem reads_past (h : start.ahead = chars ++ rest) :
    start.Reads chars (start.past chars rest) := by
  have hahead := ahead_past h
  exact ⟨by rw [hahead, h], by rw [hahead]⟩

theorem Reads.behind_eq (h : start.Reads chars stop) :
    stop.behind.reverse = start.behind.reverse ++ chars := by
  rw [h.stop_eq, (behind_past ..).1, List.reverse_append, List.reverse_reverse]

theorem Reads.offset_eq (h : start.Reads chars stop) :
    stop.offset = start.offset + byteLength chars := by
  rw [h.stop_eq, (behind_past ..).2]

theorem Reads.sliceFrom_eq (h : start.Reads chars stop) : stop.sliceFrom start.offset = chars := by
  rw [h.stop_eq, sliceFrom_past]

/-- All byte offsets from the cursor to the end of the text fit in 32 bits. -/
def Fits (cursor : Cursor) : Prop := cursor.offset + byteLength cursor.ahead < UInt32.size

theorem Reads.fits (h : start.Reads chars stop) (hfit : start.Fits) : stop.Fits := by
  rwa [Fits, h.ahead_eq, byteLength_append, ← Nat.add_assoc, ← h.offset_eq] at hfit

/-- What is read is spanned uncut when it fits. -/
theorem Reads.spanFrom_eq (h : start.Reads chars stop) (hfit : start.Fits) :
    stop.spanFrom start.offset = ⟨start.offset, stop.offset⟩ := by
  refine Span.ofOffsets_of_lt ?_ (Nat.lt_of_le_of_lt (Nat.le_add_right _ _) (h.fits hfit))
  rw [h.offset_eq]
  exact Nat.le_add_right _ _

theorem follows_past (hf : start.Follows) (chars text : List Char) :
    (start.past chars text).Follows := by
  induction chars generalizing start with
  | nil => exact hf
  | cons c rest ih => exact ih (follows_step hf c _)

theorem Reads.follows (h : start.Reads chars stop) (hf : start.Follows) : stop.Follows := by
  rw [h.stop_eq]
  exact follows_past hf _ _

theorem Follows.offset_behind (h : start.Follows) :
    start.offset = byteLength start.behind.reverse := by
  rw [byteLength_reverse, h.offset_eq]

theorem Follows.position_behind (h : start.Follows) :
    start.position = .behind start.behind.reverse := by
  rw [h.position_eq, positionAfter_origin]

/-- Only characters that are accepted are read. -/
theorem reads_eatWhile (start : Cursor) (accept : Char → Bool) :
    ∃ chars, start.Reads chars (start.eatWhile accept) ∧ ∀ c ∈ chars, accept c = true := by
  unfold eatWhile
  generalize hahead : start.ahead = ahead
  induction ahead generalizing start with
  | nil => exact ⟨[], .refl start, List.forall_mem_nil _⟩
  | cons c rest ih =>
    rw [advanceWhile]
    split
    next hc =>
      obtain ⟨chars, hchars, hall⟩ := ih (start.step c rest) rfl
      exact ⟨c :: chars, (reads_step hahead).trans hchars, List.forall_mem_cons.mpr ⟨hc, hall⟩⟩
    · exact ⟨[], .refl start, List.forall_mem_nil _⟩

end Cursor

/-! ### Blanks and comments -/

/-- The text consists of blanks and comments, where `rest` follows it. A comment runs from two
slashes to a newline or to the end. -/
inductive Trivia (rest : List Char) : List Char → Prop where
  | nil : Trivia rest []
  | blank {c : Char} {text : List Char} : Text.isBlank c = true → Trivia rest text →
    Trivia rest (c :: text)
  | comment {body text : List Char} : '\n' ∉ body → (∀ c ∈ (text ++ rest).head?, c = '\n') →
    Trivia rest text → Trivia rest ('/' :: '/' :: body ++ text)

/-- What is skipped: inside a comment its body comes first, which ends before a newline. -/
theorem Token.reads_skipTrivia (ahead : List Char) :
    ∀ (inComment : Bool) (start : Cursor), start.ahead = ahead →
      ∃ body text, start.Reads (body ++ text) (skipTrivia inComment start ahead) ∧
        Trivia (skipTrivia inComment start ahead).ahead text ∧ '\n' ∉ body ∧
        if inComment then
          ∀ c ∈ (text ++ (skipTrivia inComment start ahead).ahead).head?, c = '\n'
        else body = [] := by
  induction ahead with
  | nil =>
    intro inComment start hahead
    refine ⟨[], [], .refl start, .nil, List.not_mem_nil, ?_⟩
    rw [skipTrivia, hahead]
    cases inComment with
    | true =>
      rw [if_pos rfl]
      rintro c ⟨⟩
    | false => rfl
  | cons c rest ih =>
    intro inComment start hahead
    have hstep := Cursor.reads_step hahead
    rw [skipTrivia]
    cases inComment with
    | true =>
      rw [if_pos rfl]
      by_cases hc : c = '\n'
      · subst hc
        -- The newline ends the comment and is a blank of its own.
        obtain ⟨body, text, hreads, htrivia, -, hbody⟩ := ih false (start.step '\n' rest) rfl
        obtain rfl : body = [] := hbody
        refine ⟨[], '\n' :: text, hstep.trans hreads, .blank (by decide) htrivia,
          List.not_mem_nil, ?_⟩
        rintro c ⟨⟩
        rfl
      · have hmore : (c != '\n') = true := bne_iff_ne.mpr hc
        rw [hmore]
        obtain ⟨body, text, hreads, htrivia, hno, hhead⟩ := ih true (start.step c rest) rfl
        refine ⟨c :: body, text, hstep.trans hreads, htrivia, ?_, hhead⟩
        exact fun hmem => (List.mem_cons.mp hmem).elim (fun he => hc he.symm) hno
    | false =>
      rw [if_neg Bool.false_ne_true]
      split
      next hblank =>
        obtain ⟨body, text, hreads, htrivia, hno, hbody⟩ := ih false (start.step c rest) rfl
        obtain rfl : body = [] := hbody
        exact ⟨[], c :: text, hstep.trans hreads, .blank hblank htrivia, hno, rfl⟩
      · split
        next hslash =>
          obtain ⟨rfl, hnext⟩ := hslash
          obtain ⟨body, text, hreads, htrivia, hno, hhead⟩ := ih true (start.step '/' rest) rfl
          -- The second slash is the first character that is skipped inside the comment.
          cases body with
          | nil =>
            have hfirst : rest = text ++ _ := hreads.ahead_eq
            rw [hfirst] at hnext
            exact absurd (hhead '/' hnext) (by decide)
          | cons d body =>
            have hfirst : rest = d :: body ++ text ++ _ := hreads.ahead_eq
            rw [hfirst] at hnext
            cases hnext
            refine ⟨[], '/' :: '/' :: body ++ text, hstep.trans hreads, ?_,
              List.not_mem_nil, rfl⟩
            exact .comment (fun hmem => hno (List.mem_cons_of_mem _ hmem)) hhead htrivia
        · exact ⟨[], [], .refl start, .nil, List.not_mem_nil, rfl⟩

namespace Token

/-! ### Texts of tokens -/

/-- What stands between the quotes of a string, and the value that it spells. A quote stands there
behind a backslash only. -/
inductive Unescapes : List Char → List Char → Prop where
  | nil : Unescapes [] []
  | plain {c : Char} {body value : List Char} : c ≠ '"' → c ≠ '\\' → Unescapes body value →
    Unescapes (c :: body) (c :: value)
  | escape {c : Char} {body value : List Char} : Unescapes body value →
    Unescapes ('\\' :: c :: body) (unescape c ++ value)

/-- The literal of a string is what its quotes enclose, with escapes resolved. That of any other
token is its text. -/
def StandsFor (token : Token) (text : List Char) : Prop :=
  if token.kind = .string then
    ∃ body, text = '"' :: (body ++ ['"']) ∧ Unescapes body token.literal.toList
  else token.literal.toList = text

/-- The token says where its text stands, behind the text before it. -/
structure Placed (token : Token) (before text : List Char) : Prop where
  span_eq : token.span = ⟨byteLength before, byteLength before + byteLength text⟩
  position_eq : token.position = .behind before

/-- How the reading of a string ends: behind the quote that closes it, or at the end of the text.
The characters `pending` belong to the body and were passed before, and so was what `read` was
made of, the latest first. -/
inductive StringRead (start : Cursor) (pending read : List Char) :
    Option (List Char) × Cursor → Prop where
  | closed {body value : List Char} {stop : Cursor} : start.Reads (body ++ ['"']) stop →
    Unescapes (pending ++ body) value →
    StringRead start pending read (some (read.reverse ++ value), stop)
  | unclosed {stop : Cursor} : start.Reads start.ahead stop →
    StringRead start pending read (none, stop)

/-- One character more belongs to the body. -/
theorem StringRead.step {start : Cursor} {c : Char} {rest pending later read : List Char}
    {result : Option (List Char) × Cursor} (value : List Char) (hahead : start.ahead = c :: rest)
    (hbody : ∀ {body more : List Char}, Unescapes (later ++ body) more →
      Unescapes (pending ++ c :: body) (value ++ more))
    (h : StringRead (start.step c rest) later (value.reverse ++ read) result) :
    StringRead start pending read result := by
  have hstep := Cursor.reads_step hahead
  cases h with
  | @closed body more stop hreads hvalue =>
    have hread : (value.reverse ++ read).reverse ++ more = read.reverse ++ (value ++ more) := by
      rw [List.reverse_append, List.reverse_reverse, List.append_assoc]
    have hmore : start.Reads (c :: body ++ ['"']) stop := hstep.trans hreads
    rw [hread]
    exact .closed hmore (hbody hvalue)
  | unclosed hreads =>
    refine .unclosed ?_
    rw [hahead]
    exact hstep.trans hreads

/-- A backslash that came just before is still pending. -/
theorem stringRead_scanString (ahead : List Char) :
    ∀ (read : List Char) (escaped : Bool) (start : Cursor), start.ahead = ahead →
      StringRead start (if escaped then ['\\'] else []) read
        (scanString read escaped start ahead) := by
  induction ahead with
  | nil =>
    intro read escaped start hahead
    refine .unclosed ?_
    rw [hahead]
    exact .refl start
  | cons c rest ih =>
    intro read escaped start hahead
    rw [scanString]
    cases escaped with
    | true =>
      show StringRead start ['\\'] read _
      rw [if_pos rfl]
      exact .step (unescape c) hahead .escape (ih _ false (start.step c rest) rfl)
    | false =>
      show StringRead start [] read _
      rw [if_neg Bool.false_ne_true]
      split
      next hquote =>
        subst hquote
        rw [← List.append_nil read.reverse]
        exact .closed (Cursor.reads_step hahead) .nil
      next hquote =>
        split
        next hslash =>
          subst hslash
          exact .step [] hahead id (ih read true (start.step '\\' rest) rfl)
        next hslash =>
          exact .step [c] hahead (.plain hquote hslash)
            (ih (c :: read) false (start.step c rest) rfl)

theorem ne_string_of_symbol? {c next : Char} {kind : Kind} {wide : Bool}
    (h : symbol? c next = some (kind, wide)) : kind ≠ .string ∧ kind ≠ .eof := by
  have hname := congrArg List.length (name_symbol? h)
  constructor
  · rintro rfl
    cases wide <;> cases hname
  · rintro rfl
    cases wide <;> cases hname

/-- What a token is made of between two cursors. -/
structure Cut (start : Cursor) (token : Token) (stop : Cursor) (text : List Char) : Prop where
  reads : start.Reads text stop
  stands : token.StandsFor text
  position_eq : token.position = start.position
  span_eq : token.span = stop.spanFrom start.offset
  kind_ne : token.kind ≠ .eof

/-- A token whose literal was cut out of the text. -/
theorem cut_spanning {start stop : Cursor} {text : List Char} {kind : Kind}
    (h : start.Reads text stop) (hstring : kind ≠ .string) (heof : kind ≠ .eof) :
    Cut start (spanning kind start stop) stop text where
  reads := h
  stands := by
    refine (if_neg hstring).mpr ?_
    rw [spanning, h.sliceFrom_eq, String.toList_ofList]
  position_eq := rfl
  span_eq := rfl
  kind_ne := heof

theorem cut_scanFrom {start : Cursor} {c : Char} {rest : List Char} (h : start.ahead = c :: rest) :
    ∃ more, Cut start (scanFrom start c (start.step c rest)).1.token
      (scanFrom start c (start.step c rest)).2 (c :: more) := by
  have hstep := Cursor.reads_step h
  unfold scanFrom
  split
  next hquote =>
    subst hquote
    have hread := stringRead_scanString _ [] false (start.step '"' rest) rfl
    dsimp only
    generalize scanString [] false (start.step '"' rest) (start.step '"' rest).ahead = scanned
      at hread ⊢
    cases hread with
    | @closed body value stop hreads hvalue =>
      refine ⟨body ++ ['"'], hstep.trans hreads, ?_, rfl, rfl, Kind.noConfusion⟩
      exact (if_pos rfl).mpr ⟨body, rfl, by rwa [String.toList_ofList]⟩
    | unclosed hreads =>
      exact ⟨_, cut_spanning (hstep.trans hreads) Kind.noConfusion Kind.noConfusion⟩
  · split
    · obtain ⟨chars, hchars, -⟩ := Cursor.reads_eatWhile (start.step c rest) isNamePart
      have hcut : Cut start (spanning .ident start _) _ (c :: chars) :=
        cut_spanning (hstep.trans hchars) Kind.noConfusion Kind.noConfusion
      obtain ⟨hstring, heof⟩ := Word.kind_ofName
        (spanning .ident start ((start.step c rest).eatWhile isNamePart)).literal
      refine ⟨chars, hcut.reads, ?_, rfl, rfl, heof⟩
      have hliteral := hcut.stands
      rw [StandsFor, if_neg Kind.noConfusion] at hliteral
      exact (if_neg hstring).mpr hliteral
    · split
      · obtain ⟨chars, hchars, -⟩ := Cursor.reads_eatWhile (start.step c rest) isNumberPart
        exact ⟨chars, cut_spanning (hstep.trans hchars) Kind.noConfusion Kind.noConfusion⟩
      · split
        next kind hsymbol =>
          obtain ⟨hstring, heof⟩ := ne_string_of_symbol? hsymbol
          exact ⟨[], cut_spanning hstep hstring heof⟩
        next kind hsymbol =>
          obtain ⟨hstring, heof⟩ := ne_string_of_symbol? hsymbol
          cases rest with
          | nil => exact absurd hsymbol symbol?_endMark
          | cons d more =>
            exact ⟨[d], cut_spanning (hstep.trans (Cursor.reads_step rfl)) hstring heof⟩
        · exact ⟨[], cut_spanning hstep Kind.noConfusion Kind.noConfusion⟩

end Token

/-! ### All the tokens -/

namespace Token

/-- With `before` read already, the text to come is made of the texts of the tokens and of blanks
and comments before, between and behind them. -/
inductive Tiles : (before ahead : List Char) → List Token → Prop where
  | done {before gap : List Char} : Trivia [] gap → Tiles before gap []
  | cons {before gap text rest : List Char} {token : Token} {tokens : List Token} :
    Trivia (text ++ rest) gap → text ≠ [] → token.kind ≠ .eof → token.StandsFor text →
    token.Placed (before ++ gap) text → Tiles (before ++ gap ++ text) rest tokens →
    Tiles before (gap ++ (text ++ rest)) (token :: tokens)

/-- The mark at the end of the text. -/
def endOf (text : List Char) : Token :=
  ⟨.eof, "", .behind text, ⟨byteLength text, byteLength text⟩⟩

/-- What the lexer gives after a number of calls, when it is called once more. -/
def call (cursor : Cursor) : (count : Nat) → Scanned
  | 0 => (scan cursor).1
  | count + 1 => call (scan cursor).2 count

/-- What one call does. It skips blanks and comments, and then it cuts off the text of a token or
stands at the end. -/
inductive Call (cursor : Cursor) : Scanned × Cursor → Prop where
  | token {gap text : List Char} {scanned : Scanned} {stop : Cursor} :
    cursor.Reads (gap ++ text) stop → Trivia (text ++ stop.ahead) gap → text ≠ [] →
    scanned.token.kind ≠ .eof → scanned.token.StandsFor text →
    scanned.token.Placed (cursor.behind.reverse ++ gap) text → Call cursor (scanned, stop)
  | done {stop : Cursor} : cursor.Reads cursor.ahead stop → Trivia [] cursor.ahead →
    Call cursor (⟨endOf (cursor.behind.reverse ++ cursor.ahead), none⟩, stop)

theorem call_scan {cursor : Cursor} (hf : cursor.Follows) (hfit : cursor.Fits) :
    Call cursor (scan cursor) := by
  obtain ⟨body, gap, hgap, htrivia, -, hbody⟩ := reads_skipTrivia _ false cursor rfl
  obtain rfl : body = [] := hbody
  rw [List.nil_append] at hgap
  unfold scan
  dsimp only
  generalize skipTrivia false cursor cursor.ahead = start at hgap htrivia ⊢
  have hstart := hgap.follows hf
  have hfits := hgap.fits hfit
  cases hahead : start.ahead with
  | nil =>
    have hall := hgap.ahead_eq
    rw [hahead, List.append_nil] at hall
    subst hall
    have hend : spanning .eof start start =
        endOf (cursor.behind.reverse ++ cursor.ahead) := by
      have hempty := Cursor.Reads.refl start
      rw [← hgap.behind_eq, endOf, ← hstart.position_behind, ← hstart.offset_behind, spanning,
        hempty.sliceFrom_eq, hempty.spanFrom_eq hfits]
    rw [hahead] at htrivia
    rw [hend]
    exact .done hgap htrivia
  | cons c rest =>
    obtain ⟨more, hcut⟩ := cut_scanFrom hahead
    dsimp only
    generalize scanFrom start c (start.step c rest) = result at hcut ⊢
    obtain ⟨scanned, stop⟩ := result
    rw [hcut.reads.ahead_eq] at htrivia
    have hplaced : scanned.token.Placed (cursor.behind.reverse ++ gap) (c :: more) := by
      rw [← hgap.behind_eq]
      constructor
      · rw [hcut.span_eq, hcut.reads.spanFrom_eq hfits, hcut.reads.offset_eq,
          hstart.offset_behind]
      · rw [hcut.position_eq, hstart.position_behind]
    exact .token (hgap.trans hcut.reads) htrivia (List.cons_ne_nil _ _) hcut.kind_ne hcut.stands
      hplaced

/-- At the end every call gives the end mark. -/
theorem scan_of_ahead_eq_nil {cursor : Cursor} (h : cursor.ahead = []) :
    scan cursor = (⟨spanning .eof cursor cursor, none⟩, cursor) := by
  have hskip : skipTrivia false cursor cursor.ahead = cursor := by rw [h, skipTrivia]
  rw [scan, hskip, h]

theorem call_of_ahead_eq_nil {cursor : Cursor} (h : cursor.ahead = []) (count : Nat) :
    call cursor count = ⟨spanning .eof cursor cursor, none⟩ := by
  induction count with
  | zero => rw [call, scan_of_ahead_eq_nil h]
  | succ count ih =>
    rw [call, scan_of_ahead_eq_nil h]
    exact ih

/-- The end mark comes at the end only. -/
theorem exists_scan_of_eof {cursor : Cursor} (h : (scan cursor).1.token.kind = .eof) :
    ∃ stop, stop.ahead = [] ∧ scan cursor = (⟨spanning .eof stop stop, none⟩, stop) := by
  unfold scan at h ⊢
  dsimp only at h ⊢
  generalize skipTrivia false cursor cursor.ahead = start at h ⊢
  cases hahead : start.ahead with
  | nil => exact ⟨start, hahead, rfl⟩
  | cons c rest =>
    obtain ⟨more, hcut⟩ := cut_scanFrom hahead
    rw [hahead] at h
    exact absurd h hcut.kind_ne

/-! ### Where the tokens stand -/

namespace Tiles

variable {before ahead : List Char} {tokens : List Token} {token : Token}

/-- The text of each token is a part of the source, and the token says where. -/
theorem exists_placed (h : Tiles before ahead tokens) (hm : token ∈ tokens) :
    ∃ front text back, before ++ ahead = front ++ (text ++ back) ∧ text ≠ [] ∧
      token.StandsFor text ∧ token.Placed front text := by
  induction h with
  | done => cases hm
  | @cons before gap text rest first more _ htext _ hstands hplaced _ ih =>
    rcases List.mem_cons.mp hm with rfl | hm
    · exact ⟨before ++ gap, text, rest, by rw [List.append_assoc], htext, hstands, hplaced⟩
    · obtain ⟨front, other, back, hsource, hother⟩ := ih hm
      exact ⟨front, other, back, by rw [← hsource]; simp only [List.append_assoc], hother⟩

theorem byteLength_pos {text : List Char} (h : text ≠ []) : 0 < byteLength text := by
  cases text with
  | nil => exact absurd rfl h
  | cons c rest => exact Nat.lt_add_right _ c.utf8Size_pos

theorem start_lt_stop (h : Tiles before ahead tokens) (hm : token ∈ tokens) :
    token.span.start < token.span.stop := by
  obtain ⟨front, text, back, -, htext, -, hplaced⟩ := h.exists_placed hm
  rw [hplaced.span_eq]
  exact Nat.lt_add_of_pos_right (byteLength_pos htext)

/-- No token starts in what was read before. -/
theorem le_start (h : Tiles before ahead tokens) (hm : token ∈ tokens) :
    byteLength before ≤ token.span.start := by
  induction h with
  | done => cases hm
  | @cons before gap text rest first more _ _ _ _ hplaced _ ih =>
    rcases List.mem_cons.mp hm with rfl | hm
    · rw [hplaced.span_eq, Cursor.byteLength_append]
      exact Nat.le_add_right _ _
    · have hle := ih hm
      rw [List.append_assoc, Cursor.byteLength_append] at hle
      exact Nat.le_of_add_right_le hle

theorem pairwise (h : Tiles before ahead tokens) :
    tokens.Pairwise fun a b => a.span.stop ≤ b.span.start := by
  induction h with
  | done => exact .nil
  | @cons before gap text rest first more _ _ _ _ hplaced hmore ih =>
    refine .cons (fun token hm => ?_) ih
    have hle := hmore.le_start hm
    rw [Cursor.byteLength_append] at hle
    rw [hplaced.span_eq]
    exact hle

end Tiles

end Token

/-- The tokens of the stream, the end mark again and again after the last one. -/
def TokenStream.scannedAt (stream : TokenStream) (place : Nat) : Token.Scanned :=
  stream.pending[place]?.getD ⟨stream.endMark, none⟩

namespace TokenStream

/-- The stream goes on from the cursor with what one call gives after the other. -/
theorem collect_calls (cursor : Cursor) (read : List Token.Scanned) :
    ∃ later endMark, collect cursor read = ⟨read.reverse ++ later, endMark⟩ ∧
      ∀ count, Token.call cursor count = scannedAt ⟨later, endMark⟩ count := by
  induction cursor, read using collect.induct with
  | case1 cursor read scanned stop hscan hkind =>
    obtain ⟨last, hlast, hend⟩ := Token.exists_scan_of_eof (by rwa [hscan])
    cases hscan.symm.trans hend
    refine ⟨[], _, by rw [collect_of_eof hscan hkind, List.append_nil], fun count => ?_⟩
    cases count with
    | zero => rw [Token.call, hscan]; rfl
    | succ count => rw [Token.call, hscan, Token.call_of_ahead_eq_nil hlast]; rfl
  | case2 cursor read scanned stop hscan hkind ih =>
    obtain ⟨later, endMark, hcollect, hcalls⟩ := ih
    refine ⟨scanned :: later, endMark, ?_, fun count => ?_⟩
    · rw [collect_of_ne hscan hkind, hcollect, List.reverse_cons, List.append_assoc]
      rfl
    · cases count with
      | zero => rw [Token.call, hscan]; rfl
      | succ count => rw [Token.call, hscan, hcalls]; rfl

theorem call_ofString (source : String) (count : Nat) :
    Token.call (Cursor.ofString source) count = (ofString source).scannedAt count := by
  obtain ⟨later, endMark, hcollect, hcalls⟩ := collect_calls (Cursor.ofString source) []
  have hstream : ofString source = ⟨later, endMark⟩ := hcollect
  rw [hstream, hcalls]

/-- The stream goes on from the cursor with the tokens of the text to come. -/
theorem collect_tiles {cursor : Cursor} (hf : cursor.Follows) (hfit : cursor.Fits)
    (read : List Token.Scanned) :
    ∃ later endMark, collect cursor read = ⟨read.reverse ++ later, endMark⟩ ∧
      Token.Tiles cursor.behind.reverse cursor.ahead (later.map (·.token)) ∧
      endMark = Token.endOf (cursor.behind.reverse ++ cursor.ahead) := by
  induction cursor, read using collect.induct with
  | case1 cursor read scanned stop hscan hkind =>
    have hcall := Token.call_scan hf hfit
    rw [hscan] at hcall
    rw [collect_of_eof hscan hkind]
    cases hcall with
    | token _ _ _ hne => exact absurd hkind hne
    | done _ htrivia => exact ⟨[], _, by rw [List.append_nil], .done htrivia, rfl⟩
  | case2 cursor read scanned stop hscan hkind ih =>
    have hcall := Token.call_scan hf hfit
    rw [hscan] at hcall
    rw [collect_of_ne hscan hkind]
    cases hcall with
    | done => exact absurd rfl hkind
    | @token gap text _ _ hreads htrivia htext hne hstands hplaced =>
      obtain ⟨later, endMark, hcollect, htiles, hend⟩ := ih (hreads.follows hf) (hreads.fits hfit)
      rw [hreads.behind_eq, ← List.append_assoc] at htiles hend
      refine ⟨scanned :: later, endMark, ?_, ?_, ?_⟩
      · rw [hcollect, List.reverse_cons, List.append_assoc]
        rfl
      · rw [hreads.ahead_eq, List.append_assoc]
        exact .cons htrivia htext hne hstands hplaced htiles
      · rw [hend, hreads.ahead_eq]
        simp only [List.append_assoc]

/-- The stream holds the tokens of the source, which is made of their texts and of blanks and
comments. They are what one call of the lexer gives after the other, and the end mark is what every
call gives when all of the source has been read. -/
structure Covers (stream : TokenStream) (source : String) : Prop where
  tiles : Token.Tiles [] source.toList (stream.pending.map (·.token))
  ordered : (stream.pending.map (·.token)).Pairwise fun a b => a.span.stop ≤ b.span.start
  nonempty : ∀ token ∈ stream.pending.map (·.token), token.span.start < token.span.stop
  endMark_eq : stream.endMark =
    ⟨.eof, "", .behind source.toList, ⟨source.utf8ByteSize, source.utf8ByteSize⟩⟩
  calls : ∀ count, Token.call (Cursor.ofString source) count = stream.scannedAt count

theorem byteLength_toList (source : String) : byteLength source.toList = source.utf8ByteSize := by
  have hlist : ∀ text : List Char, byteLength text = (String.ofList text).utf8ByteSize := by
    intro text
    induction text with
    | nil => rfl
    | cons c rest ih =>
      rw [String.ofList_cons, String.utf8ByteSize_append, String.utf8ByteSize_singleton, ← ih,
        byteLength]
  rw [hlist, String.ofList_toList]

theorem tiles_ofString {source : String} (hsize : source.utf8ByteSize < UInt32.size) :
    Token.Tiles [] source.toList ((ofString source).pending.map (·.token)) ∧
      (ofString source).endMark = Token.endOf source.toList := by
  have hfit : (Cursor.ofList source.toList).Fits := by
    rwa [← byteLength_toList, ← Nat.zero_add (byteLength _)] at hsize
  obtain ⟨later, endMark, hcollect, htiles, hend⟩ :=
    collect_tiles (Cursor.follows_ofList source.toList) hfit []
  have hstream : ofString source = ⟨later, endMark⟩ := hcollect
  rw [hstream]
  exact ⟨htiles, hend⟩

/-- A character with the number zero is a token of its own and not the end. -/
example : (ofString "a\x00 // b").pending.map (·.token.span) = [⟨0, 1⟩, ⟨1, 2⟩] := by
  with_unfolding_all rfl

end TokenStream

end Simian
