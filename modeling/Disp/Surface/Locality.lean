import Disp.Library.Codec
import Disp.Surface.Lexer

/-!
# Tokens are read alike in alike surroundings

A reader looks at most two characters past what it reads, and white space there tells it as
much as the end of the text.  So a token read once is read again wherever the same characters
stand before a text of the same look; and a token has no line feed in it and does not end in
white space.
-/

namespace Disp.Surface

open Disp.Library.Text List
open Disp.Library.Codec (bind_eq_ok)

variable {c : Char} {text a b : List Char} {value : Char} {rest : List Char}

/-! ## The look of a text -/

def glance : List Char → Option (Char × Bool)
  | [] => none
  | c :: rest => if isWhitespace c then none else some (c, rest.head?.any isDigit)

theorem isWhitespace_of_isDigit (hc : isDigit c = true) : isWhitespace c = false := by
  simp only [isDigit, Bool.and_eq_true, decide_eq_true_eq] at hc
  have hlow : 48 ≤ c.toNat := UInt32.le_iff_toNat_le.mp (Char.le_def.mp hc.1)
  have hhigh : c.toNat ≤ 57 := UInt32.le_iff_toNat_le.mp (Char.le_def.mp hc.2)
  simp only [isWhitespace, Bool.or_eq_false_iff, Bool.and_eq_false_iff, beq_eq_false_iff_ne,
    decide_eq_false_iff_not]
  omega

theorem isDigit_of_isWhitespace (c : Char) (hc : isWhitespace c = true) : isDigit c = false := by
  by_contra hdigit
  exact ne_of_isWhitespace hc (isWhitespace_of_isDigit (by simpa using hdigit)) rfl

theorem glance_eq_some {digit : Bool} (h : glance text = some (c, digit)) :
    ∃ rest, text = c :: rest ∧ isWhitespace c = false ∧ rest.head?.any isDigit = digit := by
  cases text with
  | nil => cases h
  | cons d rest =>
    rw [glance] at h
    split at h
    · cases h
    · rename_i hspace
      cases h
      exact ⟨rest, rfl, by simpa using hspace, rfl⟩

theorem any_head_of_glance {p : Char → Bool} (hp : ∀ c, isWhitespace c = true → p c = false)
    (h : glance a = glance b) : a.head?.any p = b.head?.any p := by
  have hnone : ∀ text, glance text = none → text.head?.any p = false := by
    intro text htext
    cases text with
    | nil => rfl
    | cons c rest =>
      by_cases hc : isWhitespace c = true
      · exact hp c hc
      · simp [glance, hc] at htext
  cases hb : glance b with
  | none => rw [hnone a (h.trans hb), hnone b hb]
  | some look =>
    obtain ⟨rest, rfl, -, -⟩ := glance_eq_some (h.trans hb)
    obtain ⟨tail, rfl, -, -⟩ := glance_eq_some hb
    rfl

theorem glance_append (h : glance a = glance b) (token : List Char) :
    glance (token ++ a) = glance (token ++ b) := by
  have hdigit : a.head?.any isDigit = b.head?.any isDigit :=
    any_head_of_glance isDigit_of_isWhitespace h
  match token with
  | [] => exact h
  | [c] => simp [glance, hdigit]
  | c :: d :: rest => simp [glance]

/-! ## Local readers -/

/-- The reader takes `token` off the text, and does so again wherever `token` stands before a
text of the same look. -/
structure Reads {α : Type} (read : Reader α) (text : List Char) (value : α)
    (token rest : List Char) : Prop where
  text_eq : text = token ++ rest
  unbroken : '\n' ∉ token
  solid : ∀ c, token.getLast? = some c → isWhitespace c = false
  again : ∀ other, glance other = glance rest → read (token ++ other) = .ok (value, other)

def Local {α : Type} (read : Reader α) : Prop :=
  ∀ text value rest, read text = .ok (value, rest) → ∃ token, Reads read text value token rest

section Combinators

variable {α β : Type} {read : Reader α}

theorem Reads.stop (read : Reader α) (text : List Char) (value : α)
    (hagain : ∀ other, glance other = glance text → read other = .ok (value, other)) :
    Reads read text value [] text :=
  ⟨rfl, by simp, by simp, hagain⟩

theorem Reads.stopAt {p : Char → Bool} {value : α} (hp : ∀ c, isWhitespace c = true → p c = false)
    (htext : text.head?.any p = false)
    (hread : ∀ other, other.head?.any p = false → read other = .ok (value, other)) :
    Reads read text value [] text :=
  .stop _ _ _ fun other hother => hread other ((any_head_of_glance hp hother).trans htext)

theorem Reads.cons {read : Reader β} {next : Reader α} {text token rest : List Char} {value : α}
    {result : β} {c : Char} (hread : Reads next text value token rest) (hc : c ≠ '\n')
    (hlast : token = [] → isWhitespace c = false)
    (hnext : ∀ other, glance other = glance rest → next (token ++ other) = .ok (value, other) →
      read (c :: (token ++ other)) = .ok (result, other)) :
    Reads read (c :: text) result (c :: token) rest where
  text_eq := by rw [hread.text_eq, cons_append]
  unbroken := by simp [hc.symm, hread.unbroken]
  solid := by
    intro d hd
    rw [List.getLast?_cons, Option.some_inj] at hd
    cases token with
    | nil => exact hd ▸ hlast rfl
    | cons e tail =>
      rw [List.getLast?_eq_some_getLast (by simp), Option.getD_some] at hd
      exact hread.solid d (by rw [List.getLast?_eq_some_getLast (by simp), hd])
  again := fun other hother => hnext other hother (hread.again other hother)

theorem ne_newline_of_solid (hc : isWhitespace c = false) : c ≠ '\n' :=
  (ne_of_isWhitespace rfl hc).symm

theorem Local.pure (value : α) : Local (Pure.pure value : Reader α) := by
  intro text v rest h
  cases h
  exact ⟨[], .stop _ _ _ fun other _ => rfl⟩

theorem Local.bind {next : α → Reader β} (hread : Local read)
    (hnext : ∀ value, Local (next value)) : Local (read >>= next) := by
  intro text value rest h
  obtain ⟨⟨first, middle⟩, hfirst, h⟩ := bind_eq_ok h
  obtain ⟨token, htoken⟩ := hread text first middle hfirst
  obtain ⟨token', htoken'⟩ := hnext first middle value rest h
  refine ⟨token ++ token', ?_, ?_, ?_, ?_⟩
  · rw [htoken.text_eq, htoken'.text_eq, append_assoc]
  · simp [htoken.unbroken, htoken'.unbroken]
  · intro c hc
    cases hlast : token'.getLast? with
    | none => exact htoken.solid c (by simpa [hlast] using hc)
    | some last => exact htoken'.solid c (by simpa [hlast] using hc)
  · intro other hother
    have hmid : glance (token' ++ other) = glance middle := by
      rw [htoken'.text_eq]
      exact glance_append hother token'
    rw [append_assoc]
    change (read (token ++ (token' ++ other)) >>= fun result => next result.1 result.2) = _
    rw [htoken.again _ hmid]
    exact htoken'.again other hother

theorem Local.map (f : α → β) (hread : Local read) : Local (f <$> read) := by
  exact hread.bind fun value => .pure (f value)

theorem Reads.char {value : α} (hc : isWhitespace c = false)
    (hread : ∀ other, glance other = glance rest → read (c :: other) = .ok (value, other)) :
    Reads read (c :: rest) value [c] rest :=
  @Reads.cons _ _ read (Pure.pure value) _ _ _ _ _ _ (.stop _ _ _ fun _ _ => rfl)
    (ne_newline_of_solid hc) (fun _ => hc) fun other hother _ => hread other hother

end Combinators

/-! ## Literals -/

theorem isWhitespace_of_unescape (h : unescape c = some value) : isWhitespace c = false := by
  unfold unescape at h
  split at h <;> first | rfl | cases h

theorem readEscaped_eq_ok (h : readEscaped c rest = .ok value) : unescape c = some value := by
  unfold readEscaped at h
  split at h
  · rename_i hval
    exact hval.trans (congrArg some (Except.ok.inj h))
  · cases h

theorem readEscaped_of_unescape (h : unescape c = some value) (rest : List Char) :
    readEscaped c rest = .ok value := by
  rw [readEscaped, h]

theorem local_readEscape : Local readEscape := by
  intro text value rest h
  cases text with
  | nil => cases h
  | cons c tail =>
    rw [readEscape] at h
    cases hescaped : readEscaped c tail with
    | error failure => simp [hescaped, Except.map] at h
    | ok escaped =>
      simp only [hescaped] at h
      obtain ⟨rfl, rfl⟩ := h
      have hval := readEscaped_eq_ok hescaped
      refine ⟨[c], .char (isWhitespace_of_unescape hval) fun other _ => ?_⟩
      rw [readEscape, readEscaped_of_unescape hval]
      rfl

theorem readString_quote (rest : List Char) : readString ('"' :: rest) = .ok ([], rest) := by
  simp [readString.eq_def]

theorem readString_newline (rest : List Char) :
    readString ('\n' :: rest) = .error ⟨"unterminated string literal", none, rest⟩ := by
  simp [readString.eq_def]

theorem readString_escape (escaped : Char) (rest : List Char) :
    readString ('\\' :: escaped :: rest) = (do
      let value ← readEscaped escaped rest
      let (values, rest) ← readString rest
      .ok (value :: values, rest)) := by
  rfl

theorem readString_char (hquote : c ≠ '"') (hslash : c ≠ '\\') (hbreak : c ≠ '\n')
    (rest : List Char) :
    readString (c :: rest) = (do
      let (values, rest) ← readString rest
      .ok (c :: values, rest)) := by
  rw [readString.eq_def]
  simp [hquote, hslash, hbreak]

/-- The closing quote is part of what is read. -/
theorem readString_reads (text value rest : List Char) (h : readString text = .ok (value, rest)) :
    ∃ token, token ≠ [] ∧ Reads readString text value token rest := by
  induction text using readString.induct generalizing value with
  | case1 | case3 => cases h
  | case2 tail =>
      rw [readString_quote] at h
      cases h
      exact ⟨['"'], by simp, .char rfl fun other _ => readString_quote other⟩
  | case4 escaped tail _ ih =>
    obtain ⟨first, hfirst, h⟩ := bind_eq_ok h
    obtain ⟨⟨values, middle⟩, hvals, h⟩ := bind_eq_ok h
    cases h
    obtain ⟨token, hne, htoken⟩ := ih values hvals
    have hval := readEscaped_eq_ok hfirst
    have hsolid := isWhitespace_of_unescape hval
    have hrest : Reads (fun text => readString ('\\' :: text)) (escaped :: tail)
        (first :: values) (escaped :: token) rest := by
      refine .cons htoken (ne_newline_of_solid hsolid) (fun _ => hsolid) fun other _ hother => ?_
      rw [readString_escape, readEscaped_of_unescape hval, hother]
      rfl
    exact ⟨'\\' :: escaped :: token, by simp,
      .cons hrest (by decide) (by simp) fun other _ hother => hother⟩
  | case5 tail =>
    rw [readString_newline] at h
    cases h
  | case6 c tail hquote hslash hbreak ih =>
    rw [readString_char hquote hslash hbreak] at h
    obtain ⟨⟨values, middle⟩, hvals, h⟩ := bind_eq_ok h
    cases h
    obtain ⟨token, hne, htoken⟩ := ih values hvals
    refine ⟨c :: token, by simp, .cons htoken hbreak (absurd · hne) fun other _ hother => ?_⟩
    rw [readString_char hquote hslash hbreak, hother]
    rfl

theorem local_readString : Local readString := by
  intro text value rest h
  obtain ⟨token, -, htoken⟩ := readString_reads text value rest h
  exact ⟨token, htoken⟩

theorem readClosingQuote_reads {quoted : Char}
    (h : readClosingQuote quoted text = .ok (value, rest)) :
    Reads (readClosingQuote quoted) text value ['\''] rest := by
  unfold readClosingQuote at h
  split at h
  · cases h
    exact .char rfl fun other _ => rfl
  · cases h

theorem local_readCharacter : Local readCharacter := by
  intro text value rest h
  cases text with
  | nil => cases h
  | cons c tail =>
    rw [readCharacter] at h
    split at h
    · cases h
    rename_i hbreak
    split at h
    · rename_i hslash
      have hescape : Local (readEscape >>= readClosingQuote) :=
        local_readEscape.bind fun _ _ _ _ h => ⟨_, readClosingQuote_reads h⟩
      obtain ⟨token, htoken⟩ := hescape _ _ _ h
      refine ⟨c :: token, .cons htoken hbreak (fun _ => hslash ▸ rfl) fun other _ hother => ?_⟩
      rw [readCharacter, if_neg hbreak, if_pos hslash, hother]
    · rename_i hslash
      have hquote := readClosingQuote_reads h
      refine ⟨c :: ['\''], .cons hquote hbreak (by simp) fun other _ hother => ?_⟩
      rw [readCharacter, if_neg hbreak, if_neg hslash, hother]

/-! ## Numbers -/

theorem readDigitRun_digit (hc : isDigit c = true) (value : List Char) (separated : Bool)
    (rest : List Char) :
    readDigitRun value separated (c :: rest) = readDigitRun (value ++ [c]) false rest := by
  rw [readDigitRun, if_pos hc]

theorem readDigitRun_separator (value : List Char) (hrest : rest.head?.any isDigit = true) :
    readDigitRun value false ('_' :: rest) = readDigitRun (value ++ ['_']) true rest := by
  rw [readDigitRun, if_neg (by decide), if_pos rfl, if_neg (by simp [hrest])]

def isRunCharacter (c : Char) : Bool := isDigit c || c == '_'

theorem isRunCharacter_of_isWhitespace (c : Char) (hc : isWhitespace c = true) :
    isRunCharacter c = false := by
  have hunderscore : c ≠ '_' := ne_of_isWhitespace hc rfl
  simp [isRunCharacter, isDigit_of_isWhitespace c hc, hunderscore]

theorem readDigitRun_stop (htext : text.head?.any isRunCharacter = false) (value : List Char)
    (separated : Bool) : readDigitRun value separated text = .ok (value, text) := by
  cases text with
  | nil => rfl
  | cons c rest =>
    simp only [List.head?_cons, Option.any_some, isRunCharacter, Bool.or_eq_false_iff,
      beq_eq_false_iff_ne] at htext
    rw [readDigitRun, if_neg (by simp [htext.1]), if_neg htext.2]

theorem readDigitRun_stop_reads (htext : text.head?.any isRunCharacter = false)
    (value : List Char) (separated : Bool) :
    Reads (readDigitRun value separated) text value [] text :=
  .stopAt isRunCharacter_of_isWhitespace htext fun _ hother => readDigitRun_stop hother _ _

theorem local_readDigitRun (value : List Char) (separated : Bool) :
    Local (readDigitRun value separated) := by
  intro text
  induction text generalizing value separated with
  | nil =>
    intro result rest h
    cases h
    exact ⟨[], readDigitRun_stop_reads rfl _ _⟩
  | cons c tail ih =>
    intro result rest h
    by_cases hdigit : isDigit c = true
    · rw [readDigitRun_digit hdigit] at h
      obtain ⟨token, htoken⟩ := ih _ _ _ _ h
      have hsolid := isWhitespace_of_isDigit hdigit
      refine ⟨c :: token, .cons htoken (ne_newline_of_solid hsolid) (fun _ => hsolid)
        fun other _ hother => ?_⟩
      rw [readDigitRun_digit hdigit, hother]
    by_cases hseparator : c = '_'
    · subst hseparator
      rw [readDigitRun, if_neg hdigit, if_pos rfl] at h
      split at h
      · cases h
      rename_i hnext
      obtain ⟨rfl, hdigits⟩ : separated = false ∧ tail.head?.any isDigit = true := by
        simpa using hnext
      obtain ⟨token, htoken⟩ := ih _ _ _ _ h
      refine ⟨'_' :: token, .cons htoken (by decide) (fun _ => rfl) fun other hlook hother => ?_⟩
      have hhead : (token ++ other).head?.any isDigit = true := by
        rw [any_head_of_glance isDigit_of_isWhitespace (glance_append hlook token),
          ← htoken.text_eq, hdigits]
      rw [readDigitRun_separator value hhead, hother]
    · have hstop : (c :: tail).head?.any isRunCharacter = false := by
        simp [isRunCharacter, hdigit, hseparator]
      rw [readDigitRun_stop hstop] at h
      cases h
      exact ⟨[], readDigitRun_stop_reads hstop _ _⟩

theorem readFraction_digit {first : Char} (hfirst : isDigit first = true) (value : List Char)
    (rest : List Char) :
    readFraction value ('.' :: first :: rest) =
      ((true, ·) <$> readDigitRun (value ++ ['.', first]) false) rest := by
  rw [readFraction, if_pos hfirst]

theorem readFraction_stop (htext : glance text ≠ some ('.', true)) (value : List Char) :
    readFraction value text = .ok ((false, value), text) := by
  unfold readFraction
  split
  · rw [if_neg]
    intro hdigit
    exact htext (by simp [glance, hdigit, isWhitespace])
  · rfl

theorem local_readFraction (value : List Char) : Local (readFraction value) := by
  intro text result rest h
  by_cases hlook : glance text = some ('.', true)
  · obtain ⟨tail, rfl, -, hdigit⟩ := glance_eq_some hlook
    obtain ⟨first, digits, rfl⟩ : ∃ first digits, tail = first :: digits := by
      cases tail with
      | nil => cases hdigit
      | cons first digits => exact ⟨first, digits, rfl⟩
    have hfirst : isDigit first = true := hdigit
    have hsolid := isWhitespace_of_isDigit hfirst
    rw [readFraction_digit hfirst] at h
    obtain ⟨token, htoken⟩ := (local_readDigitRun _ _).map _ _ _ _ h
    have hdigits : Reads (fun text => readFraction value ('.' :: text)) (first :: digits) result
        (first :: token) rest := by
      refine .cons htoken (ne_newline_of_solid hsolid) (fun _ => hsolid) fun other _ hother => ?_
      rw [readFraction_digit hfirst, hother]
    exact ⟨'.' :: first :: token, .cons hdigits (by decide) (by simp) fun _ _ hother => hother⟩
  · have hstop : ∀ other, glance other = glance text →
        readFraction value other = .ok ((false, value), other) := fun other hother =>
      readFraction_stop (hother ▸ hlook) value
    rw [hstop text rfl] at h
    cases h
    exact ⟨[], .stop _ _ _ hstop⟩

def isSign (c : Char) : Bool := c == '+' || c == '-'

theorem isSign_of_isWhitespace (c : Char) (hc : isWhitespace c = true) : isSign c = false := by
  have hplus : c ≠ '+' := ne_of_isWhitespace hc rfl
  have hminus : c ≠ '-' := ne_of_isWhitespace hc rfl
  simp [isSign, hplus, hminus]

theorem readExponentSign_stop (htext : text.head?.any isSign = false) (value : List Char) :
    readExponentSign value text = .ok (value, text) := by
  unfold readExponentSign
  split <;> simp_all [isSign]

theorem local_readExponentSign (value : List Char) : Local (readExponentSign value) := by
  intro text result rest h
  by_cases hsign : text.head?.any isSign = false
  · rw [readExponentSign_stop hsign] at h
    cases h
    exact ⟨[], .stopAt isSign_of_isWhitespace hsign fun _ hother =>
      readExponentSign_stop hother _⟩
  · cases text with
    | nil => exact absurd rfl hsign
    | cons c tail =>
      obtain rfl | rfl : c = '+' ∨ c = '-' := by simpa [isSign, or_iff_not_imp_left] using hsign
      all_goals
        cases h
        exact ⟨_, .char rfl fun _ _ => rfl⟩

theorem local_readExponentDigits (value : List Char) : Local (readExponentDigits value) := by
  intro text result rest h
  cases text with
  | nil => cases h
  | cons first tail =>
    rw [readExponentDigits] at h
    split at h
    · rename_i hfirst
      have hsolid := isWhitespace_of_isDigit hfirst
      obtain ⟨token, htoken⟩ := local_readDigitRun _ _ _ _ _ h
      refine ⟨first :: token, .cons htoken (ne_newline_of_solid hsolid) (fun _ => hsolid)
        fun other _ hother => ?_⟩
      rw [readExponentDigits, if_pos hfirst, hother]
    · cases h

def isExponent (c : Char) : Bool := c == 'e' || c == 'E'

theorem isExponent_of_isWhitespace (c : Char) (hc : isWhitespace c = true) :
    isExponent c = false := by
  have hlower : c ≠ 'e' := ne_of_isWhitespace hc rfl
  have hupper : c ≠ 'E' := ne_of_isWhitespace hc rfl
  simp [isExponent, hlower, hupper]

theorem readExponent_stop (htext : text.head?.any isExponent = false) (value : List Char) :
    readExponent value text = .ok ((false, value), text) := by
  cases text with
  | nil => rfl
  | cons c rest =>
    rw [readExponent, if_neg]
    simpa [isExponent] using htext

theorem local_readExponent (value : List Char) : Local (readExponent value) := by
  intro text result rest h
  by_cases hmark : text.head?.any isExponent = false
  · rw [readExponent_stop hmark] at h
    cases h
    exact ⟨[], .stopAt isExponent_of_isWhitespace hmark fun _ hother =>
      readExponent_stop hother _⟩
  · cases text with
    | nil => exact absurd rfl hmark
    | cons c tail =>
      have hc : c = 'e' ∨ c = 'E' := by simpa [isExponent, or_iff_not_imp_left] using hmark
      have hsolid : isWhitespace c = false := by
        obtain rfl | rfl := hc <;> rfl
      rw [readExponent, if_pos hc] at h
      have hexponent := ((local_readExponentSign (value ++ [c])).bind
        local_readExponentDigits).map (true, ·)
      obtain ⟨token, htoken⟩ := hexponent _ _ _ h
      refine ⟨c :: token, .cons htoken (ne_newline_of_solid hsolid) (fun _ => hsolid)
        fun other _ hother => ?_⟩
      rw [readExponent, if_pos hc, hother]

section Tokens

variable {φ : Type} (lexicon : Lexicon φ)

theorem local_numberKind (isFloat : Bool) (value : List Char) :
    Local (numberKind lexicon isFloat value) := by
  intro text kind rest h
  unfold numberKind at h
  split at h
  · rename_i hkind
    cases h
    refine ⟨[], .stop _ _ _ fun other _ => ?_⟩
    rw [numberKind, hkind]
  · cases h

theorem local_readNumber (first : Char) : Local (readNumber lexicon first) :=
  (local_readDigitRun [first] false).bind fun value =>
    (local_readFraction value).bind fun fraction =>
      (local_readExponent fraction.2).bind fun exponent =>
        local_numberKind lexicon (fraction.1 || exponent.1) exponent.2

/-! ## Identifiers and symbols -/

theorem isIdentifierContinue_of_isWhitespace (c : Char) (hc : isWhitespace c = true) :
    isIdentifierContinue lexicon c = false := by
  have hunderscore : c ≠ '_' := ne_of_isWhitespace hc rfl
  simp [isIdentifierContinue, hunderscore, lexicon.xidContinue_space c hc]

theorem takeWhile_append_stop {p : Char → Bool} {token other : List Char}
    (htoken : ∀ c ∈ token, p c = true) (hother : other.head?.any p = false) :
    (token ++ other).takeWhile p = token ∧ (token ++ other).dropWhile p = other := by
  have hstop : other.takeWhile p = [] ∧ other.dropWhile p = other := by
    cases other with
    | nil => simp
    | cons c rest => simp_all
  rw [takeWhile_append_of_pos htoken, dropWhile_append_of_pos htoken, hstop.1, hstop.2]
  simp

theorem any_head_dropWhile (p : Char → Bool) (text : List Char) :
    (text.dropWhile p).head?.any p = false := by
  induction text with
  | nil => rfl
  | cons c rest ih =>
    by_cases hc : p c = true
    · rw [dropWhile_cons_of_pos hc, ih]
    · rw [dropWhile_cons_of_neg hc]
      simpa using hc

theorem local_readIdentifier (first : Char) : Local (readIdentifier lexicon first) := by
  intro text kind rest h
  simp only [readIdentifier] at h
  split at h
  · rename_i hnormal
    cases h
    have hword : ∀ c ∈ text.takeWhile (isIdentifierContinue lexicon),
        isIdentifierContinue lexicon c = true := fun c hc => mem_takeWhile_imp hc
    have hend : (text.dropWhile (isIdentifierContinue lexicon)).head?.any
        (isIdentifierContinue lexicon) = false := any_head_dropWhile _ _
    have hsolid : ∀ c ∈ text.takeWhile (isIdentifierContinue lexicon), isWhitespace c = false := by
      intro c hc
      by_contra hspace
      have hstop := isIdentifierContinue_of_isWhitespace lexicon c (by simpa using hspace)
      rw [hword c hc] at hstop
      cases hstop
    refine ⟨text.takeWhile (isIdentifierContinue lexicon), ?_, ?_, ?_, ?_⟩
    · exact takeWhile_append_dropWhile.symm
    · exact fun hbreak => ne_newline_of_solid (hsolid _ hbreak) rfl
    · exact fun c hc => hsolid c (List.mem_of_getLast? hc)
    · intro other hother
      obtain ⟨htake, hdrop⟩ := takeWhile_append_stop hword
        ((any_head_of_glance (isIdentifierContinue_of_isWhitespace lexicon) hother).trans hend)
      simp only [readIdentifier, htake, hdrop, if_pos hnormal]
  · cases h

theorem local_single (symbol : Symbol) : Local fun text => .ok (single symbol text) :=
  .pure symbol

theorem local_follow {expected : Char} {found other : SymbolReader}
    (hexp : isWhitespace expected = false) (hfound : Local fun text => .ok (found text))
    (hother : Local fun text => .ok (other text)) :
    Local fun text => .ok (follow expected found other text) := by
  intro text symbol rest h
  by_cases hhead : text.head?.any (· == expected) = true
  · cases text with
    | nil => cases hhead
    | cons c tail =>
      obtain rfl : c = expected := by simpa using hhead
      have hfollow : ∀ after, follow c found other (c :: after) = found after := by
        intro after
        rw [follow, if_pos rfl]
      simp only [hfollow] at h
      obtain ⟨token, htoken⟩ := hfound _ _ _ h
      refine ⟨c :: token, .cons htoken (ne_newline_of_solid hexp) (fun _ => hexp)
        fun after _ hafter => ?_⟩
      simpa only [hfollow] using hafter
  · have hsame : ∀ after : List Char, after.head?.any (· == expected) = false →
        follow expected found other after = other after := by
      intro after hafter
      cases after with
      | nil => rfl
      | cons d more => rw [follow, if_neg (by simpa using hafter)]
    simp only [hsame text (by simpa using hhead)] at h
    obtain ⟨token, htoken⟩ := hother _ _ _ h
    refine ⟨token, htoken.text_eq, htoken.unbroken, htoken.solid, fun after hafter => ?_⟩
    have hspace : ∀ c, isWhitespace c = true → (c == expected) = false := fun c hc =>
      beq_false_of_ne (ne_of_isWhitespace hc hexp)
    have hnot : (token ++ after).head?.any (· == expected) = false := by
      rw [any_head_of_glance hspace (glance_append hafter token), ← htoken.text_eq]
      simpa using hhead
    simp only [hsame _ hnot]
    exact htoken.again after hafter

theorem local_compound {next : Char} (hnext : isWhitespace next = false)
    (combined alone : Symbol) : Local fun text => .ok (compound next combined alone text) :=
  local_follow hnext (local_single combined) (local_single alone)

theorem local_symbolReader {read : SymbolReader} (h : symbolReader c = some read) :
    isWhitespace c = false ∧ Local fun text => .ok (read text) := by
  unfold symbolReader at h
  split at h <;> cases h
  all_goals first
    | exact ⟨rfl, local_single _⟩
    | exact ⟨rfl, local_compound rfl _ _⟩
    | exact ⟨rfl, local_follow rfl (local_single _) (local_compound rfl _ _)⟩
    | exact ⟨rfl, local_follow rfl (local_compound rfl _ _) (local_single _)⟩

/-! ## Tokens -/

theorem local_readToken (c : Char) : Local (readToken lexicon c) := by
  unfold readToken
  cases hsymbol : symbolReader c with
  | some read => exact (local_symbolReader hsymbol).2.map TokenKind.symbol
  | none =>
    simp only []
    split
    · exact local_readString.map _
    split
    · exact local_readCharacter.map _
    split
    · exact local_readNumber lexicon c
    split
    · exact local_readIdentifier lexicon c
    · intro text kind rest h
      cases h

end Tokens

end Disp.Surface
