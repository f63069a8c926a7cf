import Mathlib.Data.List.Basic
import Mathlib.Data.List.TakeWhile

/-!
# White space and lines

Text as a list of characters: the white space at its ends, and the pieces between its line
feeds.
-/

namespace Disp.Library.Text

open List

variable {c : Char} {text line : List Char} {more : List (List Char)} {token : List Char}

/-! ## White space -/

/-- `char::is_whitespace`. -/
def isWhitespace (c : Char) : Bool :=
  let n := c.toNat
  (9 ≤ n && n ≤ 13) || n == 0x20 || n == 0x85 || n == 0xa0 || n == 0x1680 ||
    (0x2000 ≤ n && n ≤ 0x200a) || n == 0x2028 || n == 0x2029 || n == 0x202f || n == 0x205f ||
    n == 0x3000

theorem ne_of_isWhitespace {d : Char} (hc : isWhitespace c = true)
    (hd : isWhitespace d = false) : c ≠ d := by
  rintro rfl
  rw [hd] at hc
  cases hc

/-- `str::trim`. -/
def trim (text : List Char) : List Char :=
  ((text.dropWhile isWhitespace).reverse.dropWhile isWhitespace).reverse

def Blank (text : List Char) : Prop := ∀ c ∈ text, isWhitespace c = true

theorem blank_takeWhile (text : List Char) : Blank (text.takeWhile isWhitespace) :=
  fun _ hc => mem_takeWhile_imp hc

theorem exists_trim (text : List Char) :
    ∃ before after, text = before ++ trim text ++ after ∧ Blank before ∧ Blank after := by
  set middle := text.dropWhile isWhitespace with hmid
  refine ⟨text.takeWhile isWhitespace, (middle.reverse.takeWhile isWhitespace).reverse, ?_,
    blank_takeWhile text, ?_⟩
  · have hends : trim text ++ (middle.reverse.takeWhile isWhitespace).reverse = middle := by
      rw [trim, ← reverse_append, takeWhile_append_dropWhile, reverse_reverse]
    rw [append_assoc, hends, takeWhile_append_dropWhile]
  · intro c hc
    exact blank_takeWhile _ c (mem_reverse.mp hc)

theorem mem_of_mem_trim (hc : c ∈ trim text) : c ∈ text := by
  obtain ⟨before, after, htext, -, -⟩ := exists_trim text
  rw [htext]
  simp [hc]

/-! ## Lines -/

def pieces (text : List Char) : List (List Char) := text.splitOn '\n'

@[simp] theorem pieces_nil : pieces [] = [[]] := rfl

@[simp] theorem pieces_newline (rest : List Char) : pieces ('\n' :: rest) = [] :: pieces rest := by
  simp [pieces, List.splitOn, splitOnP_cons_eq_if_modifyHead]

theorem pieces_cons (hc : c ≠ '\n') (rest : List Char) :
    pieces (c :: rest) = (pieces rest).modifyHead (List.cons c) := by
  simp [pieces, List.splitOn, splitOnP_cons_eq_if_modifyHead, hc]

theorem pieces_append_newline (before after : List Char) :
    pieces (before ++ '\n' :: after) = pieces before ++ pieces after :=
  splitOnP_append_cons before after (by simp)

theorem pieces_line (hline : '\n' ∉ line) : pieces line = [line] :=
  splitOn_eq_singleton hline

/-- Where the first line of a text ends. -/
inductive FirstLine : List Char → List Char → List (List Char) → Prop
  | last {line : List Char} : '\n' ∉ line → FirstLine line line []
  | broken {line rest : List Char} : '\n' ∉ line →
      FirstLine (line ++ '\n' :: rest) line (pieces rest)

theorem FirstLine.cons {c : Char} {text line : List Char} {more : List (List Char)}
    (hc : c ≠ '\n') (hfirst : FirstLine text line more) :
    FirstLine (c :: text) (c :: line) more := by
  cases hfirst with
  | last hline => exact .last (by simp [hline, hc.symm])
  | broken hline => exact @FirstLine.broken (c :: line) _ (by simp [hline, hc.symm])

theorem FirstLine.pieces_eq (hfirst : FirstLine text line more) : pieces text = line :: more := by
  cases hfirst with
  | last hline => exact pieces_line hline
  | broken hline => rw [pieces_append_newline, pieces_line hline, singleton_append]

theorem FirstLine.append (hfirst : FirstLine text line more) (htoken : '\n' ∉ token) :
    FirstLine (token ++ text) (token ++ line) more := by
  induction token with
  | nil => exact hfirst
  | cons c rest ih =>
    rw [mem_cons, not_or] at htoken
    exact (ih htoken.2).cons (Ne.symm htoken.1)

theorem FirstLine.of_append (hfirst : FirstLine text (token ++ line) more) :
    ∃ rest, text = token ++ rest ∧ FirstLine rest line more := by
  generalize hfront : token ++ line = front at hfirst
  cases hfirst with
  | last hline =>
    subst hfront
    exact ⟨line, rfl, .last fun hmem => hline (mem_append_right token hmem)⟩
  | @broken _ after hline =>
    subst hfront
    exact ⟨line ++ '\n' :: after, by rw [append_assoc],
      .broken fun hmem => hline (mem_append_right token hmem)⟩

theorem FirstLine.head?_iff (hfirst : FirstLine text line more) (hc : c ≠ '\n') :
    text.head? = some c ↔ line.head? = some c := by
  cases hfirst with
  | last => exact Iff.rfl
  | broken =>
    cases line with
    | nil => simp [hc.symm]
    | cons d rest => simp

theorem exists_firstLine (text : List Char) : ∃ line more, FirstLine text line more := by
  induction text with
  | nil => exact ⟨[], [], .last (by simp)⟩
  | cons c rest ih =>
    by_cases hc : c = '\n'
    · subst hc
      exact ⟨[], pieces rest, @FirstLine.broken [] rest (by simp)⟩
    · obtain ⟨line, more, hfirst⟩ := ih
      exact ⟨c :: line, more, hfirst.cons hc⟩

/-- `str::lines` on a text without carriage returns: a last line that is empty does not
count. -/
def lines (text : List Char) : List (List Char) :=
  if (pieces text).getLast? = some [] then (pieces text).dropLast else pieces text

theorem pieces_eq_lines (text : List Char) :
    pieces text = lines text ∨ pieces text = lines text ++ [[]] := by
  by_cases hlast : (pieces text).getLast? = some []
  · right
    rw [lines, if_pos hlast]
    exact (dropLast_append_getLast? [] hlast).symm
  · left
    rw [lines, if_neg hlast]

theorem not_mem_of_mem_pieces (hline : line ∈ pieces text) : '\n' ∉ line := by
  induction text generalizing line with
  | nil => simp_all
  | cons c rest ih =>
    by_cases hc : c = '\n'
    · subst hc
      rw [pieces_newline, mem_cons] at hline
      obtain rfl | hrest := hline
      · simp
      · exact ih hrest
    · obtain ⟨first, more, hfirst⟩ := exists_firstLine rest
      rw [(hfirst.cons hc).pieces_eq, mem_cons] at hline
      rw [hfirst.pieces_eq] at ih
      obtain rfl | hmore := hline
      · simpa [Ne.symm hc] using ih mem_cons_self
      · exact ih (mem_cons_of_mem _ hmore)

theorem not_mem_of_mem_lines (hline : line ∈ lines text) : '\n' ∉ line := by
  rw [lines] at hline
  split at hline
  · exact not_mem_of_mem_pieces (dropLast_subset _ hline)
  · exact not_mem_of_mem_pieces hline

def unlines (ls : List (List Char)) : List Char := ls.flatMap (· ++ ['\n'])

theorem pieces_unlines {ls : List (List Char)} (hls : ∀ line ∈ ls, '\n' ∉ line) :
    pieces (unlines ls) = ls ++ [[]] := by
  induction ls with
  | nil => rfl
  | cons line ls ih =>
    have hrest := ih fun other hother => hls other (mem_cons_of_mem _ hother)
    have hline := hls line mem_cons_self
    rw [unlines, flatMap_cons, append_assoc, singleton_append, pieces_append_newline,
      pieces_line hline]
    exact congrArg (line :: ·) hrest

end Disp.Library.Text
