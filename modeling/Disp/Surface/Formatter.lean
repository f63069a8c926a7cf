import Disp.Surface.Rows

/-!
# The formatter

`format_source` and what it does to the tokens of a program.  It works on lines, which it
trims, indents and separates by at most one blank line; the rows of tokens do not change under
that.  What can change them is that it takes every carriage return for the end of a line.
-/

namespace Disp.Surface

open Disp.Library.Text List

/-! ## Braces -/

/-- The variables of `scan_braces`. -/
structure BraceState where
  blockCommentDepth : Nat
  string : Bool
  character : Bool
  escaped : Bool
  opens : Nat
  closes : Nat

def BraceState.start (blockCommentDepth : Nat) : BraceState :=
  ⟨blockCommentDepth, false, false, false, 0, 0⟩

/-- A character inside a string or a character literal. -/
def BraceState.quoted (state : BraceState) (current : Char) : BraceState :=
  if state.escaped then { state with escaped := false }
  else if current = '\\' then { state with escaped := true }
  else if state.string && current == '"' then { state with string := false }
  else if state.character && current == '\'' then { state with character := false }
  else state

def BraceState.plain (state : BraceState) (current : Char) : BraceState :=
  match current with
  | '"' => { state with string := true }
  | '\'' => { state with character := true }
  | '{' => { state with opens := state.opens + 1 }
  | '}' => { state with closes := state.closes + 1 }
  | _ => state

def scanBraces (state : BraceState) : List Char → BraceState
  | [] => state
  | current :: rest =>
    if state.blockCommentDepth ≠ 0 then
      if current = '/' ∧ rest.head? = some '*' then
        scanBraces { state with blockCommentDepth := state.blockCommentDepth + 1 } rest.tail
      else if current = '*' ∧ rest.head? = some '/' then
        scanBraces { state with blockCommentDepth := state.blockCommentDepth - 1 } rest.tail
      else scanBraces state rest
    else if state.string || state.character then scanBraces (state.quoted current) rest
    else if current = '/' ∧ rest.head? = some '/' then state
    else if current = '/' ∧ rest.head? = some '*' then
      scanBraces { state with blockCommentDepth := 1 } rest.tail
    else scanBraces (state.plain current) rest
termination_by line => line.length
decreasing_by
  all_goals simp only [List.length_cons, List.length_tail]
  all_goals omega

def leadingClosingBraces (line : List Char) (blockCommentDepth : Nat) : Nat :=
  if blockCommentDepth ≠ 0 then 0 else (line.takeWhile (· = '}')).length

/-! ## Lines -/

structure FormatState where
  output : List Char
  blockCommentDepth : Nat
  depth : Nat
  previousBlank : Bool

def indentation (depth : Nat) : List Char :=
  (List.replicate depth [' ', ' ', ' ', ' ']).flatten

/-- The body of the loop over the lines.  The counters stay below the length of the source, so
that they do not saturate. -/
def formatLine (state : FormatState) (rawLine : List Char) : FormatState :=
  let content := trim rawLine
  if content = [] then
    { state with
      output :=
        if state.output ≠ [] ∧ ¬state.previousBlank then state.output ++ ['\n'] else state.output
      previousBlank := true }
  else
    let leadingCloses := leadingClosingBraces content state.blockCommentDepth
    let scanned := scanBraces (.start state.blockCommentDepth) content
    { output :=
        state.output ++ (indentation (state.depth - leadingCloses) ++ content ++ ['\n'])
      blockCommentDepth := scanned.blockCommentDepth
      depth := state.depth + scanned.opens - scanned.closes
      previousBlank := false }

/-- `while output.ends_with("\n\n") { output.pop(); }`, from the end of the text. -/
def popBlankLines : List Char → List Char
  | '\n' :: '\n' :: rest => popBlankLines ('\n' :: rest)
  | reversed => reversed

def endLine (output : List Char) : List Char :=
  if output ≠ [] ∧ output.getLast? ≠ some '\n' then output ++ ['\n'] else output

def layout (normalized : List Char) : List Char :=
  let state := (lines normalized).foldl formatLine ⟨[], 0, 0, false⟩
  endLine (popBlankLines state.output.reverse).reverse

/-- `replace("\r\n", "\n")`. -/
def replaceCrLf : List Char → List Char
  | [] => []
  | c :: rest =>
    if c = '\r' ∧ rest.head? = some '\n' then replaceCrLf rest else c :: replaceCrLf rest

def normalize (source : List Char) : List Char :=
  (replaceCrLf source).map fun c => if c = '\r' then '\n' else c

/-! ## The formatter -/

def maxSourceBytes : Nat := 16 * 1024 * 1024

/-- `str::len`. -/
def byteLength : List Char → Nat
  | [] => 0
  | c :: rest => c.utf8Size + byteLength rest

def sourceTooLong (size : Nat) : Diagnostic :=
  let limit := maxSourceBytes
  ⟨.lex, s!"source is {size} bytes; the current safety limit is {limit} bytes",
    ⟨⟨1, 1⟩, ⟨1, 1⟩⟩, none⟩

section Format

variable {φ : Type} (lexicon : Lexicon φ) (parser : Parser φ) {text space : List Char} {c : Char}
  {line : List Char} {ls out ls' : List (List Char)}

def formatSource (source : List Char) : Except Diagnostic (List Char) :=
  if maxSourceBytes < byteLength source then .error (sourceTooLong (byteLength source))
  else do
    parser.parseSource lexicon source
    let output := layout (normalize source)
    parser.parseSource lexicon output
    .ok output

/-! ## White space at the ends of a line -/

theorem head?_append_blank (hspace : Blank space) (hc : isWhitespace c = false) :
    (text ++ space).head? = some c ↔ text.head? = some c := by
  cases text with
  | nil =>
    cases space with
    | nil => rfl
    | cons d rest =>
      have hd := hspace d mem_cons_self
      simpa using ne_of_isWhitespace hd hc
  | cons d rest => simp

theorem glance_append_blank (hspace : Blank space) : glance (text ++ space) = glance text := by
  have hblank : glance space = glance [] := by
    cases space with
    | nil => rfl
    | cons c rest => simp [glance, hspace c mem_cons_self]
  simpa using glance_append hblank text

theorem scanLine_blank_append (depth : Nat) (hspace : Blank space) (line : List Char) :
    scanLine lexicon depth (space ++ line) = scanLine lexicon depth line := by
  induction space with
  | nil => rfl
  | cons c rest ih =>
    have hc := hspace c mem_cons_self
    have hslash : c ≠ '/' := ne_of_isWhitespace hc rfl
    have hstar : c ≠ '*' := ne_of_isWhitespace hc rfl
    rw [cons_append]
    refine .trans ?_ (ih fun d hd => hspace d (mem_cons_of_mem c hd))
    cases depth with
    | zero => rw [scanLine, if_neg (Nat.lt_irrefl 0), if_pos hc]
    | succ depth =>
      rw [scanLine, if_pos (Nat.succ_pos depth), if_neg (by simp [hslash]),
        if_neg (by simp [hstar])]

theorem token_append_blank {token after : List Char}
    (htoken : ∀ c, token.getLast? = some c → isWhitespace c = false) (hspace : Blank space)
    (heq : line ++ space = token ++ after) :
    ∃ rest, line = token ++ rest ∧ after = rest ++ space := by
  obtain ⟨rest, rfl, rfl⟩ | ⟨rest, rfl, rfl⟩ := append_eq_append_iff.mp heq
  · cases hlast : rest.getLast? with
    | none =>
      rw [List.getLast?_eq_none_iff] at hlast
      subst hlast
      exact ⟨[], by simp, by simp⟩
    | some c =>
      have hsolid := htoken c (by rw [List.getLast?_append, hlast, Option.some_or])
      rw [hspace c (mem_append_left _ (List.mem_of_getLast? hlast))] at hsolid
      cases hsolid
  · exact ⟨rest, rfl, rfl⟩

theorem tail_append_blank (h : text.head? = some c) :
    (text ++ space).tail = text.tail ++ space := by
  rw [exists_tail_of_head? h]
  rfl

theorem scanLine_append_blank (depth : Nat) (line : List Char) (hspace : Blank space) :
    scanLine lexicon depth (line ++ space) = scanLine lexicon depth line := by
  have hslash : ∀ text, (text ++ space).head? = some '/' ↔ text.head? = some '/' :=
    fun text => head?_append_blank hspace rfl
  have hstar : ∀ text, (text ++ space).head? = some '*' ↔ text.head? = some '*' :=
    fun text => head?_append_blank hspace rfl
  fun_induction scanLine lexicon depth line with
  | case1 depth => simpa using scanLine_blank_append lexicon depth hspace []
  | case2 depth c rest hdepth hopen ih =>
    rw [cons_append, scanLine, if_pos hdepth, if_pos (by rwa [hstar]),
      tail_append_blank hopen.2, ih]
  | case3 depth c rest hdepth hopen hclose ih =>
    rw [cons_append, scanLine, if_pos hdepth, if_neg (by rwa [hstar]),
      if_pos (by rwa [hslash]), tail_append_blank hclose.2, ih]
  | case4 depth c rest hdepth hopen hclose ih =>
    rw [cons_append, scanLine, if_pos hdepth, if_neg (by rwa [hstar]),
      if_neg (by rwa [hslash]), ih]
  | case5 depth c rest hdepth hc ih =>
    rw [cons_append, scanLine, if_neg hdepth, if_pos hc, ih]
  | case6 depth c rest hdepth hc hline =>
    rw [cons_append, scanLine, if_neg hdepth, if_neg hc, if_pos (by rwa [hslash])]
  | case7 depth c rest hdepth hc hline hblock ih =>
    rw [cons_append, scanLine, if_neg hdepth, if_neg hc, if_neg (by rwa [hslash]),
      if_pos (by rwa [hstar]), tail_append_blank hblock.2, ih]
  | case8 depth c rest hdepth hc hline hblock failure hfailure =>
    have hat : AtToken c (rest ++ space) :=
      ⟨by simpa using hc, by rwa [hslash], by rwa [hstar]⟩
    obtain rfl : depth = 0 := by omega
    cases htoken : readToken lexicon c (rest ++ space) with
    | error failure => exact scanLine_no_token lexicon hat htoken
    | ok result =>
      -- such a token would be read without the white space as well
      obtain ⟨kind, after⟩ := result
      obtain ⟨token, hreads⟩ := local_readToken lexicon c _ _ _ htoken
      obtain ⟨short, rfl, rfl⟩ := token_append_blank hreads.solid hspace hreads.text_eq
      rw [hreads.again short (glance_append_blank hspace).symm] at hfailure
      cases hfailure
  | case9 depth c rest hdepth hc hline hblock kind after htoken ih =>
    have hat : AtToken c (rest ++ space) :=
      ⟨by simpa using hc, by rwa [hslash], by rwa [hstar]⟩
    obtain rfl : depth = 0 := by omega
    obtain ⟨token, hreads⟩ := local_readToken lexicon c _ _ _ htoken
    have hagain := hreads.again (after ++ space) (glance_append_blank hspace)
    rw [← append_assoc, ← hreads.text_eq] at hagain
    rw [cons_append, scanLine_token lexicon hat hagain, ih]

theorem scanLine_trim (depth : Nat) (line : List Char) :
    scanLine lexicon depth (trim line) = scanLine lexicon depth line := by
  obtain ⟨before, after, hline, hbefore, hafter⟩ := exists_trim line
  conv_rhs => rw [hline, scanLine_append_blank lexicon depth _ hafter,
    scanLine_blank_append lexicon depth hbefore]

theorem eq_space_of_mem_indentation {depth : Nat} (hc : c ∈ indentation depth) : c = ' ' := by
  rw [indentation, mem_flatten] at hc
  obtain ⟨spaces, hspaces, hc⟩ := hc
  rw [(mem_replicate.mp hspaces).2] at hc
  simpa using hc

theorem blank_indentation (depth : Nat) : Blank (indentation depth) := by
  intro c hc
  rw [eq_space_of_mem_indentation hc]
  rfl

/-! ## Formatting keeps the rows -/

/-- What formatting does to the lines of a text: a line without content is dropped or left
blank, any other is trimmed and indented. -/
inductive Reformats : List (List Char) → List (List Char) → Prop
  | nil : Reformats [] []
  | drop {line : List Char} {ls out : List (List Char)} : trim line = [] →
      Reformats ls out → Reformats (line :: ls) out
  | blank {line : List Char} {ls out : List (List Char)} : trim line = [] →
      Reformats ls out → Reformats (line :: ls) ([] :: out)
  | indent {line : List Char} {ls out : List (List Char)} (depth : Nat) :
      Reformats ls out → Reformats (line :: ls) ((indentation depth ++ trim line) :: out)

theorem foldl_formatLine (ls : List (List Char)) (state : FormatState) :
    ∃ out, Reformats ls out ∧ (ls.foldl formatLine state).output = state.output ++ unlines out := by
  induction ls generalizing state with
  | nil => exact ⟨[], .nil, by simp [unlines]⟩
  | cons line ls ih =>
    obtain ⟨out, hout, houtput⟩ := ih (formatLine state line)
    rw [foldl_cons, houtput]
    by_cases hcont : trim line = []
    · by_cases hblank : state.output ≠ [] ∧ ¬state.previousBlank
      · exact ⟨[] :: out, .blank hcont hout, by simp [formatLine, hcont, hblank, unlines]⟩
      · refine ⟨out, .drop hcont hout, ?_⟩
        simp only [formatLine, hcont, if_true, if_neg hblank]
    · refine ⟨_ :: out, .indent
        (state.depth - leadingClosingBraces (trim line) state.blockCommentDepth) hout, ?_⟩
      simp only [formatLine, if_neg hcont, unlines, flatMap_cons, append_assoc]

def lineRows (depth : Nat) (ls : List (List Char)) : Option (List (List (TokenKind φ))) :=
  (scanLines lexicon depth ls).map (·.filter (· ≠ []))

theorem lineRows_cons (depth : Nat) (line : List Char) (ls : List (List Char)) :
    lineRows lexicon depth (line :: ls) =
      (scanLine lexicon depth line).bind fun result =>
        (lineRows lexicon result.2 ls).map ([result.1].filter (· ≠ []) ++ ·) := by
  simp only [lineRows, scanLines, Option.map_bind, Option.map_map, Function.comp_def]
  congr 1
  funext result
  congr 1
  funext rows
  rw [← filter_append, singleton_append]

theorem lineRows_blank (depth : Nat) (hline : trim line = []) (ls : List (List Char)) :
    lineRows lexicon depth (line :: ls) = lineRows lexicon depth ls := by
  rw [lineRows_cons, ← scanLine_trim, hline]
  simp

theorem Reformats.lineRows_eq (h : Reformats ls out) (depth : Nat) :
    lineRows lexicon depth out = lineRows lexicon depth ls := by
  induction h generalizing depth with
  | nil => rfl
  | drop hline _ ih => rw [lineRows_blank lexicon depth hline, ih]
  | blank hline _ ih =>
    rw [lineRows_blank lexicon depth hline, lineRows_blank lexicon depth rfl, ih]
  | indent indent _ ih =>
    simp only [lineRows_cons, ih]
    rw [scanLine_blank_append lexicon depth (blank_indentation indent), scanLine_trim]

theorem lineRows_append_nil (depth : Nat) (ls : List (List Char)) :
    lineRows lexicon depth (ls ++ [[]]) = lineRows lexicon depth ls := by
  induction ls generalizing depth with
  | nil => exact lineRows_blank lexicon depth rfl []
  | cons line ls ih => simp only [cons_append, lineRows_cons, ih]

theorem textRows_eq (text : List Char) : textRows lexicon text = lineRows lexicon 0 (pieces text) :=
  rfl

theorem textRows_lines (text : List Char) :
    textRows lexicon text = lineRows lexicon 0 (lines text) := by
  rw [textRows_eq]
  obtain hlines | hlines := pieces_eq_lines text
  · rw [hlines]
  · rw [hlines, lineRows_append_nil]

theorem textRows_append_newline (text : List Char) :
    textRows lexicon (text ++ ['\n']) = textRows lexicon text := by
  rw [textRows_eq, textRows_eq, pieces_append_newline, pieces_nil, lineRows_append_nil]

theorem textRows_popBlankLines (reversed : List Char) :
    textRows lexicon (popBlankLines reversed).reverse = textRows lexicon reversed.reverse := by
  fun_induction popBlankLines reversed with
  | case1 rest ih =>
    have hpop : ('\n' :: '\n' :: rest).reverse = ('\n' :: rest).reverse ++ ['\n'] :=
      reverse_cons
    rw [ih, hpop, textRows_append_newline]
  | case2 => rfl

theorem textRows_endLine (text : List Char) :
    textRows lexicon (endLine text) = textRows lexicon text := by
  rw [endLine]
  split
  · exact textRows_append_newline lexicon text
  · rfl

theorem Reformats.no_newline (h : Reformats ls out) (hls : ∀ line ∈ ls, '\n' ∉ line) :
    ∀ line ∈ out, '\n' ∉ line := by
  induction h with
  | nil => simp
  | drop _ _ ih => exact ih fun line hline => hls line (mem_cons_of_mem _ hline)
  | blank _ _ ih =>
    simpa using ih fun line hline => hls line (mem_cons_of_mem _ hline)
  | @indent line _ _ depth _ ih =>
    have hline : '\n' ∉ indentation depth ++ trim line := by
      rw [mem_append, not_or]
      refine ⟨fun hmem => ?_, fun hmem => hls line mem_cons_self (mem_of_mem_trim hmem)⟩
      cases eq_space_of_mem_indentation hmem
    intro other hother
    obtain rfl | hother := mem_cons.mp hother
    · exact hline
    · exact ih (fun line hline => hls line (mem_cons_of_mem _ hline)) other hother

theorem textRows_layout (normalized : List Char) :
    textRows lexicon (layout normalized) = textRows lexicon normalized := by
  obtain ⟨out, hout, houtput⟩ := foldl_formatLine (lines normalized) ⟨[], 0, 0, false⟩
  have hlines := hout.no_newline fun line => not_mem_of_mem_lines
  rw [layout, textRows_endLine, textRows_popBlankLines, reverse_reverse, houtput,
    nil_append, textRows_eq, pieces_unlines hlines, lineRows_append_nil, hout.lineRows_eq,
    textRows_lines]

/-! ## Carriage returns -/

/-- The text with every carriage return that no line feed follows read as a line feed. -/
def breakLoneCr : List Char → List Char
  | [] => []
  | c :: rest =>
    (if c = '\r' ∧ rest.head? ≠ some '\n' then '\n' else c) :: breakLoneCr rest

/-- A text in which a line feed follows every carriage return stays as it is. -/
theorem breakLoneCr_eq_self {text : List Char}
    (h : ∀ before after, text = before ++ '\r' :: after → after.head? = some '\n') :
    breakLoneCr text = text := by
  induction text with
  | nil => rfl
  | cons c rest ih =>
    have hfirst : ¬(c = '\r' ∧ rest.head? ≠ some '\n') := by
      rintro ⟨rfl, hlone⟩
      exact hlone (h [] rest rfl)
    have hrest := ih fun before after heq => h (c :: before) after (by rw [heq, cons_append])
    rw [breakLoneCr, if_neg hfirst, hrest]

abbrev ReturnedLines :=
  List.Forall₂ fun line line' : List Char => line' = line ∨ line' = line ++ ['\r']

theorem ReturnedLines.cons_head (h : ReturnedLines ls ls') (c : Char) :
    ReturnedLines (ls.modifyHead (List.cons c)) (ls'.modifyHead (List.cons c)) := by
  cases h with
  | nil => exact .nil
  | cons hline hrest =>
    refine .cons ?_ hrest
    obtain rfl | rfl := hline
    · exact .inl rfl
    · exact .inr rfl

theorem normalize_cons {rest : List Char} (h : ¬(c = '\r' ∧ rest.head? = some '\n')) :
    normalize (c :: rest) = (if c = '\r' then '\n' else c) :: normalize rest := by
  rw [normalize, replaceCrLf, if_neg h]
  rfl

theorem returnedLines_normalize (source : List Char) :
    ReturnedLines (pieces (normalize source)) (pieces (breakLoneCr source)) := by
  induction source with
  | nil => exact .cons (.inl rfl) .nil
  | cons c rest ih =>
    by_cases hcrlf : c = '\r' ∧ rest.head? = some '\n'
    · obtain ⟨rfl, hnewline⟩ := hcrlf
      obtain ⟨tail, rfl⟩ : ∃ tail, rest = '\n' :: tail := ⟨_, exists_tail_of_head? hnewline⟩
      exact .cons (.inr rfl) (forall₂_cons.mp ih).2
    · rw [normalize_cons hcrlf, breakLoneCr]
      by_cases hreturn : c = '\r'
      · have hlone : rest.head? ≠ some '\n' := fun h => hcrlf ⟨hreturn, h⟩
        rw [if_pos hreturn, if_pos ⟨hreturn, hlone⟩]
        exact .cons (.inl rfl) ih
      · rw [if_neg hreturn, if_neg (fun h => hreturn h.1)]
        by_cases hnewline : c = '\n'
        · rw [hnewline]
          exact .cons (.inl rfl) ih
        · rw [pieces_cons hnewline, pieces_cons hnewline]
          exact ih.cons_head c

theorem ReturnedLines.lineRows_eq (h : ReturnedLines ls ls') (depth : Nat) :
    lineRows lexicon depth ls' = lineRows lexicon depth ls := by
  induction h generalizing depth with
  | nil => rfl
  | @cons line line' _ _ hline _ ih =>
    have hscan : scanLine lexicon depth line' = scanLine lexicon depth line := by
      obtain rfl | rfl := hline
      · rfl
      · exact scanLine_append_blank lexicon depth line fun c hc => by
          rw [mem_singleton.mp hc]
          rfl
    simp only [lineRows_cons, hscan, ih]

theorem textRows_normalize (source : List Char) :
    textRows lexicon (normalize source) = textRows lexicon (breakLoneCr source) :=
  ((returnedLines_normalize source).lineRows_eq lexicon 0).symm

/-- The text with its lines ended by a carriage return and a line feed. -/
def toCrLf (text : List Char) : List Char :=
  text.flatMap fun c => if c = '\n' then ['\r', '\n'] else [c]

theorem returnedLines_toCrLf (text : List Char) :
    ReturnedLines (pieces text) (pieces (toCrLf text)) := by
  induction text with
  | nil => exact .cons (.inl rfl) .nil
  | cons c rest ih =>
    rw [toCrLf, flatMap_cons, ← toCrLf]
    by_cases hnewline : c = '\n'
    · rw [if_pos hnewline, hnewline, pieces_newline, cons_append, pieces_cons (by decide)]
      exact .cons (.inr rfl) ih
    · rw [if_neg hnewline, singleton_append, pieces_cons hnewline, pieces_cons hnewline]
      exact ih.cons_head c

/-- A text has the same tokens, and is accepted alike, with either kind of line end. -/
theorem toCrLf_keeps_tokens (text : List Char) :
    tokenKinds lexicon (toCrLf text) = tokenKinds lexicon text ∧
      (parser.parseSource lexicon (toCrLf text)).isOk = (parser.parseSource lexicon text).isOk :=
  congr_of_textRows lexicon parser ((returnedLines_toCrLf text).lineRows_eq lexicon 0)

/-! ## The formatter on whole programs -/

theorem formatSource_eq_ok {source output : List Char} :
    formatSource lexicon parser source = .ok output ↔
      byteLength source ≤ maxSourceBytes ∧ (parser.parseSource lexicon source).isOk ∧
        (parser.parseSource lexicon output).isOk ∧ output = layout (normalize source) := by
  rw [formatSource]
  split
  · simp [Nat.not_le.mpr ‹_›]
  · rename_i hsize
    cases hsrc : parser.parseSource lexicon source with
    | error diagnostic => simp [bind, Except.bind, Except.isOk, Except.toBool]
    | ok =>
      cases hlayout : parser.parseSource lexicon (layout (normalize source)) with
      | error diagnostic =>
        simp only [bind, Except.bind, hlayout, reduceCtorEq, false_iff]
        rintro ⟨-, -, hout, rfl⟩
        simp [hlayout, Except.toBool] at hout
      | ok =>
        simp only [bind, Except.bind, hlayout, Except.ok.injEq]
        constructor
        · rintro rfl
          exact ⟨Nat.le_of_not_lt hsize, rfl, by rw [hlayout]; rfl, rfl⟩
        · rintro ⟨-, -, -, rfl⟩
          rfl

/-- Formatting a program keeps its tokens exactly if they stay the same, and still parse, when
every lone carriage return is read as the end of a line. -/
theorem format_preserves_iff (source : List Char) (hsize : byteLength source ≤ maxSourceBytes)
    (hparses : (parser.parseSource lexicon source).isOk) :
    (∃ output, formatSource lexicon parser source = .ok output ∧
        tokenKinds lexicon output = tokenKinds lexicon source) ↔
      tokenKinds lexicon (breakLoneCr source) = tokenKinds lexicon source ∧
        (parser.parseSource lexicon (breakLoneCr source)).isOk := by
  have hrows : textRows lexicon (layout (normalize source)) =
      textRows lexicon (breakLoneCr source) := by
    rw [textRows_layout, textRows_normalize]
  obtain ⟨hkinds, hparse⟩ := congr_of_textRows lexicon parser hrows
  rw [← hkinds, ← hparse]
  constructor
  · rintro ⟨output, hformat, htokens⟩
    obtain ⟨-, -, hout, rfl⟩ := (formatSource_eq_ok lexicon parser).mp hformat
    exact ⟨htokens, hout⟩
  · rintro ⟨htokens, hout⟩
    exact ⟨_, (formatSource_eq_ok lexicon parser).mpr ⟨hsize, hparses, hout, rfl⟩, htokens⟩

end Format

/-! ## Programs with carriage returns -/

/-- Identifiers of ASCII letters and digits, and no floating-point values. -/
def asciiLexicon : Lexicon Empty where
  isXidStart c := c.isAlpha
  isXidContinue c := c.isAlphanum && !isWhitespace c
  nfc := id
  parseFloat _ := none
  xidContinue_space c hc := by simp [hc]

def everyProgram : Parser Empty where
  parse _ := .ok ()
  congr _ _ _ _ := rfl

/-- A comment, a string and a carriage return between two tokens. -/
def mixedProgram : List Char := "// note\r\nfn f()\x7b\r let s = \"b\" \x7d\r\n".toList

/-- With carriage returns before line feeds and between tokens the tokens stay as they are. -/
theorem crlf_program_formats :
    ∃ output, formatSource asciiLexicon everyProgram mixedProgram = .ok output ∧
      tokenKinds asciiLexicon output = tokenKinds asciiLexicon mixedProgram :=
  (format_preserves_iff asciiLexicon everyProgram mixedProgram (by decide)
    (by decide +kernel)).mpr (by decide +kernel)

/-- A comment with a carriage return in it: the rest of the comment becomes a function. -/
theorem comment_becomes_function :
    tokenKinds asciiLexicon "//\rfn f(){}".toList = some [.eof] ∧
      formatSource asciiLexicon everyProgram "//\rfn f(){}".toList =
        .ok "//\nfn f(){}\n".toList ∧
      tokenKinds asciiLexicon "//\nfn f(){}\n".toList =
        some [.keyword .kwFn, .identifier ['f'], .symbol .leftParen, .symbol .rightParen,
          .symbol .leftBrace, .symbol .rightBrace, .eof] := by
  decide +kernel

end Disp.Surface
