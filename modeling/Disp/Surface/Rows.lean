import Disp.Surface.Tokenize

/-!
# Tokens line by line

No token and no line comment reaches over a line feed, so a text can be lexed one line at a
time, with the depth of the block comment that is still open as the only thing to remember.
This is how `tokenize` lexes it.
-/

namespace Disp.Surface

open Disp.Library.Text List Option

section Lines

variable {φ : Type} (lexicon : Lexicon φ) {text line : List Char} {more : List (List Char)}
  {depth depth' : Nat} {rest after : List Char} {c : Char} {kind : TokenKind φ} {failure : Failure}
  {rows : List (List (TokenKind φ))} {tokens : List (Token φ)}

/-- The tokens of a line, and the depth of the block comment that is open after it. -/
def scanLine (depth : Nat) : List Char → Option (List (TokenKind φ) × Nat)
  | [] => some ([], depth)
  | c :: rest =>
    if 0 < depth then
      if c = '/' ∧ rest.head? = some '*' then scanLine (depth + 1) rest.tail
      else if c = '*' ∧ rest.head? = some '/' then scanLine (depth - 1) rest.tail
      else scanLine depth rest
    else if isWhitespace c then scanLine 0 rest
    else if c = '/' ∧ rest.head? = some '/' then some ([], 0)
    else if c = '/' ∧ rest.head? = some '*' then scanLine 1 rest.tail
    else
      match _htoken : readToken lexicon c rest with
      | .error _ => none
      | .ok (kind, after) =>
        (scanLine 0 after).map fun result => (kind :: result.1, result.2)
termination_by line => line.length
decreasing_by
  all_goals simp only [List.length_cons, List.length_tail]
  all_goals try omega
  have := (readToken_suffix lexicon _htoken).length_le
  omega

/-- The rows of tokens of some lines; no block comment is left open. -/
def scanLines : Nat → List (List Char) → Option (List (List (TokenKind φ)))
  | depth, [] => if depth = 0 then some [] else none
  | depth, line :: more =>
    (scanLine lexicon depth line).bind fun result =>
      (scanLines result.2 more).map (result.1 :: ·)

def scanText (depth : Nat) (text : List Char) : Option (List (List (TokenKind φ))) :=
  scanLines lexicon depth (pieces text)

/-! ## Text and lines -/

theorem glance_firstLine (hfirst : FirstLine text line more) : glance line = glance text := by
  cases hfirst with
  | last => rfl
  | broken =>
    match line with
    | [] => rfl
    | [c] => simp [glance, isDigit]
    | c :: d :: rest => simp [glance]

@[simp] theorem scanLine_nil (depth : Nat) : scanLine lexicon depth [] = some ([], depth) := by
  rw [scanLine]

@[simp] theorem scanText_nil : scanText lexicon 0 [] = some [[]] := by
  simp [scanText, scanLines]

theorem scanText_newline (depth : Nat) (rest : List Char) :
    scanText lexicon depth ('\n' :: rest) = (scanText lexicon depth rest).map ([] :: ·) := by
  rw [scanText, pieces_newline, scanLines, scanLine_nil]
  rfl

theorem scanText_append {depth depth' : Nat} {token rest : List Char}
    {kinds : List (TokenKind φ)} (htoken : '\n' ∉ token)
    (hline : ∀ line more, FirstLine rest line more →
      scanLine lexicon depth (token ++ line) =
        (scanLine lexicon depth' line).map fun result => (kinds ++ result.1, result.2)) :
    scanText lexicon depth (token ++ rest) =
      (scanText lexicon depth' rest).map fun rows => rows.modifyHead (kinds ++ ·) := by
  obtain ⟨line, more, hfirst⟩ := exists_firstLine rest
  rw [scanText, (hfirst.append htoken).pieces_eq, scanLines, hline line more hfirst, scanText,
    hfirst.pieces_eq, scanLines]
  cases scanLine lexicon depth' line with
  | none => rfl
  | some result =>
    simp only [bind_some, Option.map_map]
    rfl

theorem scanText_skip (trivia rest : List Char) (htrivia : '\n' ∉ trivia)
    (hline : ∀ line more, FirstLine rest line more →
      scanLine lexicon depth (trivia ++ line) = scanLine lexicon depth' line) :
    scanText lexicon depth (trivia ++ rest) = scanText lexicon depth' rest := by
  rw [@scanText_append _ lexicon depth depth' trivia rest [] htrivia fun line more hfirst =>
    (hline line more hfirst).trans (by simp)]
  have hid : (fun rows : List (List (TokenKind φ)) => rows.modifyHead ([] ++ ·)) = id := by
    funext rows
    cases rows <;> rfl
  rw [hid, Option.map_id, id]

/-! ## White space and comments -/

/-- Lexing a text that starts inside a block comment of some depth, or outside if that is zero,
comes to `after` with no token and a row for every line feed on the way. -/
def Skips (depth : Nat) (text after : List Char) : Prop :=
  ∃ trivia, text = trivia ++ after ∧
    scanText lexicon depth text =
      (scanText lexicon 0 after).map (List.replicate (trivia.count '\n') [] ++ ·)

/-- What skipping comes to: a text after it, or nothing in a comment that is left open. -/
def Skipped (depth : Nat) (text : List Char) : Option (List Char) → Prop
  | none => scanText lexicon depth text = none
  | some after => Skips lexicon depth text after

variable {lexicon} {result : Option (List Char)}

theorem Skips.refl (text : List Char) : Skips lexicon 0 text text :=
  ⟨[], rfl, by simp⟩

theorem Skipped.skip (trivia : List Char) (htrivia : '\n' ∉ trivia)
    (hscan : scanText lexicon depth (trivia ++ rest) = scanText lexicon depth' rest)
    (h : Skipped lexicon depth' rest result) : Skipped lexicon depth (trivia ++ rest) result := by
  cases result with
  | none => exact hscan.trans h
  | some after =>
    obtain ⟨more, rfl, hmore⟩ := h
    refine ⟨trivia ++ more, by rw [append_assoc], ?_⟩
    rw [hscan, hmore, count_append, count_eq_zero_of_not_mem htrivia, Nat.zero_add]

theorem Skipped.newline (h : Skipped lexicon depth rest result) :
    Skipped lexicon depth ('\n' :: rest) result := by
  cases result with
  | none => exact (scanText_newline lexicon depth rest).trans (map_eq_none_iff.mpr h)
  | some after =>
    obtain ⟨more, rfl, hscan⟩ := h
    refine ⟨'\n' :: more, rfl, ?_⟩
    rw [scanText_newline, hscan, Option.map_map, count_cons_self]
    rfl

theorem Skips.trans {middle : List Char} (h : Skips lexicon depth text middle)
    (h' : Skipped lexicon 0 middle result) : Skipped lexicon depth text result := by
  obtain ⟨first, rfl, hfirst⟩ := h
  cases result with
  | none => exact hfirst.trans (map_eq_none_iff.mpr h')
  | some after =>
    obtain ⟨second, rfl, hsecond⟩ := h'
    refine ⟨first ++ second, by rw [append_assoc], ?_⟩
    rw [hfirst, hsecond, Option.map_map, count_append, replicate_add]
    simp only [Function.comp_def, append_assoc]

variable (lexicon)

theorem exists_tail_of_head? (h : text.head? = some c) : text = c :: text.tail := by
  cases text with
  | nil => cases h
  | cons d rest => rw [List.head?_cons, some_inj] at h; rw [h, tail_cons]

theorem scanText_open (depth : Nat) (rest : List Char) :
    scanText lexicon depth ('/' :: '*' :: rest) = scanText lexicon (depth + 1) rest := by
  refine scanText_skip lexicon ['/', '*'] rest (by decide) fun line more _ => ?_
  change scanLine lexicon depth ('/' :: '*' :: line) = _
  cases depth with
  | zero | succ => rw [scanLine]; simp [isWhitespace]

theorem scanText_close (depth : Nat) (rest : List Char) :
    scanText lexicon (depth + 1) ('*' :: '/' :: rest) = scanText lexicon depth rest := by
  refine scanText_skip lexicon ['*', '/'] rest (by decide) fun line more _ => ?_
  change scanLine lexicon (depth + 1) ('*' :: '/' :: line) = _
  rw [scanLine]
  simp

theorem scanText_inside (depth : Nat) (hc : c ≠ '\n') (hopen : ¬(c = '/' ∧ rest.head? = some '*'))
    (hclose : ¬(c = '*' ∧ rest.head? = some '/')) :
    scanText lexicon (depth + 1) (c :: rest) = scanText lexicon (depth + 1) rest := by
  refine scanText_skip lexicon [c] rest (by simpa using hc.symm) fun line more hfirst => ?_
  rw [hfirst.head?_iff (by decide)] at hopen hclose
  rw [singleton_append, scanLine, if_pos (Nat.succ_pos depth), if_neg hopen, if_neg hclose]

theorem skipped_skipBlock (depth : Nat) (text : List Char) :
    Skipped lexicon depth text (skipBlock depth text) := by
  fun_induction skipBlock depth text with
  | case1 text => exact .refl text
  | case2 depth => simp [Skipped, scanText, scanLines]
  | case3 depth c rest hopen ih =>
    obtain ⟨rfl, hstar⟩ := hopen
    rw [exists_tail_of_head? hstar]
    exact .skip ['/', '*'] (by decide) (scanText_open lexicon _ _) ih
  | case4 depth c rest hopen hclose ih =>
    obtain ⟨rfl, hslash⟩ := hclose
    rw [exists_tail_of_head? hslash]
    exact .skip ['*', '/'] (by decide) (scanText_close lexicon depth _) ih
  | case5 depth c rest hopen hclose ih =>
    by_cases hc : c = '\n'
    · subst hc
      exact ih.newline
    · exact .skip [c] (by simpa using Ne.symm hc) (scanText_inside lexicon depth hc hopen hclose) ih

theorem scanText_space (hc : isWhitespace c = true) (hbreak : c ≠ '\n') (rest : List Char) :
    scanText lexicon 0 (c :: rest) = scanText lexicon 0 rest := by
  refine scanText_skip lexicon [c] rest (by simpa using hbreak.symm) fun line more _ => ?_
  rw [singleton_append, scanLine, if_neg (Nat.lt_irrefl 0), if_pos hc]

theorem newline_not_mem_takeWhile (text : List Char) : '\n' ∉ text.takeWhile (· ≠ '\n') :=
  fun hmem => by simpa using mem_takeWhile_imp hmem

theorem firstLine_dropWhile (hfirst : FirstLine (text.dropWhile (· ≠ '\n')) line more) :
    line = [] := by
  have hhead := any_head_dropWhile (· ≠ '\n') text
  generalize text.dropWhile (· ≠ '\n') = rest at hfirst hhead
  cases hfirst with
  | last hline | broken hline => cases line <;> simp_all

theorem scanText_lineComment (hslash : rest.head? = some '/') :
    scanText lexicon 0 (('/' :: rest.takeWhile (· ≠ '\n')) ++ rest.dropWhile (· ≠ '\n')) =
      scanText lexicon 0 (rest.dropWhile (· ≠ '\n')) := by
  refine scanText_skip lexicon _ _ (by simpa using newline_not_mem_takeWhile rest)
    fun line more hfirst => ?_
  have hhead : (rest.takeWhile (· ≠ '\n')).head? = some '/' := by
    rw [exists_tail_of_head? hslash]
    simp
  rw [firstLine_dropWhile hfirst, append_nil, scanLine_nil, scanLine,
    if_neg (Nat.lt_irrefl 0), if_neg (by decide), if_pos ⟨rfl, hhead⟩]

theorem skipped_skipTrivia (text : List Char) :
    Skipped lexicon 0 text (skipTrivia text).toOption := by
  fun_induction skipTrivia text with
  | case1 | case6 => exact .refl _
  | case2 c tail hc ih =>
    by_cases hbreak : c = '\n'
    · subst hbreak
      exact ih.newline
    · exact .skip [c] (by simpa using Ne.symm hbreak) (scanText_space lexicon hc hbreak tail) ih
  | case3 c tail _ hline ih =>
    obtain ⟨rfl, hslash⟩ := hline
    have hskip := Skipped.skip _ (by simpa using newline_not_mem_takeWhile tail)
      (scanText_lineComment lexicon hslash) ih
    rwa [cons_append, takeWhile_append_dropWhile] at hskip
  | case4 c tail _ _ hopen hblock =>
    have hskipped := skipped_skipBlock lexicon 1 tail.tail
    rw [hblock] at hskipped
    obtain ⟨rfl, hstar⟩ := hopen
    rw [exists_tail_of_head? hstar]
    exact (scanText_open lexicon 0 _).trans hskipped
  | case5 c tail _ _ hopen after hblock ih =>
    have hskipped := skipped_skipBlock lexicon 1 tail.tail
    rw [hblock] at hskipped
    obtain ⟨rfl, hstar⟩ := hopen
    rw [exists_tail_of_head? hstar]
    exact .skip ['/', '*'] (by decide) (scanText_open lexicon 0 _) (hskipped.trans ih)

theorem skipTrivia_skips (h : skipTrivia text = .ok rest) : Skips lexicon 0 text rest := by
  have hskipped := skipped_skipTrivia lexicon text
  rwa [h] at hskipped

/-! ## Tokens -/

/-- A token starts here: neither white space nor a comment. -/
structure AtToken (c : Char) (rest : List Char) : Prop where
  solid : isWhitespace c = false
  noLineComment : ¬(c = '/' ∧ rest.head? = some '/')
  noBlockComment : ¬(c = '/' ∧ rest.head? = some '*')

theorem skipTrivia_stops (h : skipTrivia text = .ok (c :: rest)) : AtToken c rest := by
  fun_induction skipTrivia text with
  | case1 => cases h
  | case2 _ _ _ ih | case3 _ _ _ _ ih | case5 _ _ _ _ _ _ _ ih => exact ih h
  | case4 => cases h
  | case6 d tail hspace hline hblock =>
    obtain ⟨rfl, rfl⟩ := List.cons.inj (Except.ok.inj h)
    exact ⟨by simpa using hspace, hline, hblock⟩

theorem AtToken.firstLine (hat : AtToken c text) (hfirst : FirstLine text line more) :
    AtToken c line where
  solid := hat.solid
  noLineComment := by
    rw [← hfirst.head?_iff (by decide)]
    exact hat.noLineComment
  noBlockComment := by
    rw [← hfirst.head?_iff (by decide)]
    exact hat.noBlockComment

theorem scanLine_token (hat : AtToken c line)
    (htoken : readToken lexicon c line = .ok (kind, after)) :
    scanLine lexicon 0 (c :: line) =
      (scanLine lexicon 0 after).map fun result => (kind :: result.1, result.2) := by
  rw [scanLine, if_neg (Nat.lt_irrefl 0), if_neg (by simp [hat.solid]), if_neg hat.noLineComment,
    if_neg hat.noBlockComment]
  split
  · simp_all
  · simp_all

theorem scanLine_no_token (hat : AtToken c line)
    (htoken : readToken lexicon c line = .error failure) :
    scanLine lexicon 0 (c :: line) = none := by
  rw [scanLine, if_neg (Nat.lt_irrefl 0), if_neg (by simp [hat.solid]), if_neg hat.noLineComment,
    if_neg hat.noBlockComment]
  split
  · rfl
  · simp_all

theorem scanText_token (hat : AtToken c text)
    (htoken : readToken lexicon c text = .ok (kind, after)) :
    scanText lexicon 0 (c :: text) =
      (scanText lexicon 0 after).map fun rows => rows.modifyHead (kind :: ·) := by
  obtain ⟨token, hreads⟩ := local_readToken lexicon c _ _ _ htoken
  have hbreak : '\n' ∉ c :: token := by
    simp [(ne_newline_of_solid hat.solid).symm, hreads.unbroken]
  rw [hreads.text_eq]
  refine @scanText_append _ lexicon 0 0 _ _ [kind] hbreak fun line more hfirst => ?_
  have hline := hat.firstLine (hreads.text_eq ▸ hfirst.append hreads.unbroken)
  exact scanLine_token lexicon hline (hreads.again line (glance_firstLine hfirst))

theorem scanText_no_token (hat : AtToken c text)
    (htoken : readToken lexicon c text = .error failure) :
    scanText lexicon 0 (c :: text) = none := by
  obtain ⟨line, more, hfirst⟩ := exists_firstLine text
  have hnone : scanLine lexicon 0 (c :: line) = none := by
    cases hline : readToken lexicon c line with
    | error failure => exact scanLine_no_token lexicon (hat.firstLine hfirst) hline
    | ok result =>
      -- what is read in the line would be read in the text
      obtain ⟨token, hreads⟩ := local_readToken lexicon c _ _ _ hline
      obtain ⟨rest, rfl, hrest⟩ := FirstLine.of_append (hreads.text_eq ▸ hfirst)
      rw [hreads.again rest (glance_firstLine hrest).symm] at htoken
      cases htoken
  rw [scanText, (hfirst.cons (ne_newline_of_solid hat.solid)).pieces_eq, scanLines, hnone,
    bind_none]

/-! ## The token stream by rows -/

theorem Position.over_line (position : Position) (text : List Char) :
    (position.over text).line = position.line + text.count '\n' := by
  induction text generalizing position with
  | nil => rfl
  | cons c rest ih =>
    rw [Position.over, foldl_cons, ← Position.over, ih, Position.after, count_cons]
    by_cases hc : c = '\n'
    · simp only [hc, if_true, beq_self_eq_true]
      omega
    · simp [hc]

theorem consumed_append (token rest : List Char) : consumed (token ++ rest) rest = token := by
  simp [consumed]

def Token.place (token : Token φ) : TokenKind φ × Nat × Nat :=
  (token.kind, token.span.start.line, token.span.stop.line)

def numbered (line : Nat) : List (List (TokenKind φ)) → List (TokenKind φ × Nat × Nat)
  | [] => []
  | row :: rows => row.map (·, line, line) ++ numbered (line + 1) rows

theorem numbered_replicate (line count : Nat) (rows : List (List (TokenKind φ))) :
    numbered line (List.replicate count [] ++ rows) = numbered (line + count) rows := by
  induction count generalizing line with
  | zero => rfl
  | succ count ih =>
    rw [replicate_succ, cons_append, numbered, map_nil, nil_append, ih,
      Nat.add_right_comm, Nat.add_assoc]

theorem scanText_ne_nil (h : scanText lexicon depth text = some rows) :
    ∃ row more, rows = row :: more := by
  obtain ⟨line, more, hfirst⟩ := exists_firstLine text
  rw [scanText, hfirst.pieces_eq, scanLines, bind_eq_some_iff] at h
  obtain ⟨result, -, h⟩ := h
  obtain ⟨others, -, rfl⟩ := map_eq_some_iff.mp h
  exact ⟨_, _, rfl⟩

/-- The tokens lie on the lines of their rows. -/
structure Stream (line : Nat) (rows : List (List (TokenKind φ))) (tokens : List (Token φ)) :
    Prop where
  nonempty : tokens ≠ []
  ends : tokens.map Token.kind = tokens.dropLast.map Token.kind ++ [.eof]
  places : tokens.dropLast.map Token.place = numbered line rows

/-- What `tokenizeFrom` returns for the rows of its text. -/
def Tokenized (line : Nat) (rows : Option (List (List (TokenKind φ))))
    (result : Except Diagnostic (List (Token φ))) : Prop :=
  match rows with
  | none => ∃ diagnostic, result = .error diagnostic
  | some rows => ∃ tokens, result = .ok tokens ∧ Stream line rows tokens

theorem tokenized_end {line count : Nat} {position : Position} :
    Tokenized line (some (List.replicate count [] ++ [[]]))
      (.ok [(⟨.eof, ⟨position, position⟩⟩ : Token φ)]) := by
  refine ⟨_, rfl, by simp, rfl, ?_⟩
  rw [numbered_replicate]
  rfl

theorem Tokenized.cons {line count : Nat} {kind : TokenKind φ} {span : Span}
    {rows : Option (List (List (TokenKind φ)))} {result : Except Diagnostic (List (Token φ))}
    (h : Tokenized span.stop.line rows result)
    (hrows : ∀ found, rows = some found → ∃ row more, found = row :: more)
    (hstart : span.start.line = line + count) (hstop : span.stop.line = span.start.line) :
    Tokenized line (rows.map fun rows => List.replicate count [] ++ rows.modifyHead (kind :: ·))
      (do
        let tokens ← result
        .ok (⟨kind, span⟩ :: tokens)) := by
  cases rows with
  | none =>
    obtain ⟨diagnostic, rfl⟩ := h
    exact ⟨diagnostic, rfl⟩
  | some found =>
    obtain ⟨tokens, rfl, hstream⟩ := h
    obtain ⟨row, more, rfl⟩ := hrows found rfl
    have hplaces := hstream.places
    refine ⟨_, rfl, by simp, ?_, ?_⟩
    · rw [dropLast_cons_of_ne_nil hstream.nonempty, map_cons, hstream.ends]
      rfl
    · rw [dropLast_cons_of_ne_nil hstream.nonempty, map_cons, hplaces,
        numbered_replicate, modifyHead_cons, numbered, Token.place, hstop, hstart]
      rfl

theorem tokenizeFrom_tokenized (position : Position) (text : List Char) :
    Tokenized position.line (scanText lexicon 0 text) (tokenizeFrom lexicon position text) := by
  fun_induction tokenizeFrom lexicon position text with
  | case1 position text comment htrivia =>
    have hskipped := skipped_skipTrivia lexicon text
    rw [htrivia] at hskipped
    rw [show scanText lexicon 0 text = none from hskipped]
    exact ⟨_, rfl⟩
  | case2 position text htrivia =>
    obtain ⟨trivia, -, hscan⟩ := skipTrivia_skips lexicon htrivia
    rw [hscan, scanText_nil]
    exact tokenized_end
  | case3 position text c tail htrivia failure htoken =>
    obtain ⟨trivia, -, hscan⟩ := skipTrivia_skips lexicon htrivia
    rw [hscan, scanText_no_token lexicon (skipTrivia_stops htrivia) htoken]
    exact ⟨_, rfl⟩
  | case4 position text c tail htrivia kind after htoken htrivia' start stop ih =>
    have hat := skipTrivia_stops htrivia
    obtain ⟨trivia, htext, hscan⟩ := skipTrivia_skips lexicon htrivia
    obtain ⟨token, hreads⟩ := local_readToken lexicon c _ _ _ htoken
    have hstart : start.line = position.line + trivia.count '\n' := by
      rw [Position.over_line, htext, consumed_append]
    have hstop : stop.line = start.line := by
      have hcount : (c :: token).count '\n' = 0 := count_eq_zero_of_not_mem (by
        simp [(ne_newline_of_solid hat.solid).symm, hreads.unbroken])
      rw [Position.over_line, hreads.text_eq, ← cons_append, consumed_append, hcount, Nat.add_zero]
    rw [hscan, scanText_token lexicon hat htoken, Option.map_map]
    exact @Tokenized.cons _ _ _ _ ⟨start, stop⟩ _ _ ih (fun _ => scanText_ne_nil lexicon) hstart
      hstop

/-! ## What the parser sees -/

/-- Tokens grouped by lines: a token that starts on a later line than the one before it ends
on starts a row. -/
def breakRows {κ : Type} : List (κ × Nat × Nat) → List (List κ)
  | [] => []
  | [(kind, _, _)] => [[kind]]
  | (kind, _, stop) :: (next, start, stop') :: rest =>
    if stop < start then [kind] :: breakRows ((next, start, stop') :: rest)
    else (breakRows ((next, start, stop') :: rest)).modifyHead (kind :: ·)

theorem le_of_mem_numbered {line : Nat} {place : TokenKind φ × Nat × Nat}
    (h : place ∈ numbered line rows) : line ≤ place.2.1 := by
  induction rows generalizing line with
  | nil => cases h
  | cons row rows ih =>
    rw [numbered, mem_append, List.mem_map] at h
    obtain ⟨kind, -, rfl⟩ | h := h
    · exact Nat.le_refl line
    · exact Nat.le_of_succ_le (ih h)

theorem breakRows_row {κ : Type} (kind : κ) (row : List κ) (line : Nat)
    {rest : List (κ × Nat × Nat)} (hrest : ∀ place ∈ rest, line < place.2.1) :
    breakRows ((kind :: row).map (·, line, line) ++ rest) = (kind :: row) :: breakRows rest := by
  induction row generalizing kind with
  | nil =>
    cases rest with
    | nil => rfl
    | cons place rest =>
      have hlater := hrest place mem_cons_self
      simp [breakRows, hlater]
  | cons next row ih =>
    have hnext := ih next
    simp only [map_cons, cons_append] at hnext ⊢
    rw [breakRows, if_neg (Nat.lt_irrefl line), hnext]
    rfl

theorem breakRows_numbered (line : Nat) (rows : List (List (TokenKind φ))) :
    breakRows (numbered line rows) = rows.filter (· ≠ []) := by
  induction rows generalizing line with
  | nil => rfl
  | cons row rows ih =>
    cases row with
    | nil => simpa [numbered] using ih (line + 1)
    | cons kind row =>
      rw [numbered, breakRows_row kind row line fun place hplace => le_of_mem_numbered hplace, ih]
      simp

theorem map_fst_numbered (line : Nat) (rows : List (List (TokenKind φ))) :
    (numbered line rows).map Prod.fst = rows.flatten := by
  induction rows generalizing line with
  | nil => rfl
  | cons row rows ih => simp [numbered, ih, Function.comp_def]

/-- A parser over the tokens of the lexer.  Of the positions of the tokens, what it accepts
depends on no more than which tokens start on a later line than the one before. -/
structure Parser (φ : Type) where
  parse : List (Token φ) → Except Diagnostic Unit
  congr : ∀ a b : List (Token φ), a.map Token.kind = b.map Token.kind →
    breakRows (a.dropLast.map Token.place) = breakRows (b.dropLast.map Token.place) →
    (parse a).isOk = (parse b).isOk

/-- `formatter::parse`. -/
def Parser.parseSource (parser : Parser φ) (source : List Char) : Except Diagnostic Unit := do
  let tokens ← tokenize lexicon source
  parser.parse tokens

def tokenKinds (source : List Char) : Option (List (TokenKind φ)) :=
  (tokenize lexicon source).toOption.map (·.map Token.kind)

def textRows (text : List Char) : Option (List (List (TokenKind φ))) :=
  (scanText lexicon 0 text).map (·.filter (· ≠ []))

theorem Stream.kinds_eq {line : Nat} (h : Stream line rows tokens) :
    tokens.map Token.kind = (rows.filter (· ≠ [])).flatten ++ [.eof] := by
  have hbody : tokens.dropLast.map Token.kind = rows.flatten := by
    rw [← map_fst_numbered line rows, ← h.places, List.map_map]
    rfl
  rw [h.ends, hbody, flatten_filter_ne_nil]

theorem Stream.rows_eq {line : Nat} (h : Stream line rows tokens) :
    breakRows (tokens.dropLast.map Token.place) = rows.filter (· ≠ []) := by
  rw [h.places, breakRows_numbered]

/-- Texts with the same tokens in the same rows lex and parse alike. -/
theorem congr_of_textRows (parser : Parser φ) {a b : List Char}
    (h : textRows lexicon a = textRows lexicon b) :
    tokenKinds lexicon a = tokenKinds lexicon b ∧
      (parser.parseSource lexicon a).isOk = (parser.parseSource lexicon b).isOk := by
  have ha := tokenizeFrom_tokenized lexicon ⟨1, 1⟩ a
  have hb := tokenizeFrom_tokenized lexicon ⟨1, 1⟩ b
  rw [← tokenize] at ha hb
  rw [textRows] at h
  cases hrows : scanText lexicon 0 a with
  | none =>
    rw [hrows] at h
    rw [hrows] at ha
    rw [map_eq_none_iff.mp h.symm] at hb
    obtain ⟨failure, ha⟩ := ha
    obtain ⟨failure', hb⟩ := hb
    simp [tokenKinds, Parser.parseSource, ha, hb, Except.toOption, Except.toBool, bind, Except.bind]
  | some rows =>
    rw [hrows] at h
    obtain ⟨rows', hrows', heq⟩ := map_eq_some_iff.mp h.symm
    rw [hrows] at ha
    rw [hrows'] at hb
    obtain ⟨tokens, ha, hstream⟩ := ha
    obtain ⟨tokens', hb, hstream'⟩ := hb
    have hkinds : tokens.map Token.kind = tokens'.map Token.kind := by
      rw [hstream.kinds_eq, hstream'.kinds_eq, heq]
    constructor
    · simp [tokenKinds, ha, hb, Except.toOption, hkinds]
    · simp only [Parser.parseSource, ha, hb]
      exact parser.congr _ _ hkinds (by rw [hstream.rows_eq, hstream'.rows_eq, heq])

end Lines

end Disp.Surface
