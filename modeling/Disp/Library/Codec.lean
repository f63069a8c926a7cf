import Mathlib.Algebra.Order.Ring.Int
import Mathlib.Data.List.Forall2
import Mathlib.Tactic.Ring

/-!
# Byte strings and their readers

Little-endian numbers, slices of byte strings, and readers that consume a byte
string from the front.  `Reads reader bytes value` says that the reader takes exactly
`bytes` and yields `value`, whatever follows; `Fails` that it fails, whatever follows.
-/

namespace Disp.Library.Codec

open List

variable {width n start length : Nat}

abbrev Bytes := List UInt8

/-! ## Numbers -/

variable {bytes left : Bytes}

/-- The low `width` bytes of a number, least significant first. -/
def le : Nat → Nat → Bytes
  | 0, _ => []
  | width + 1, n => UInt8.ofNat n :: le width (n / 256)

def ofLe : Bytes → Nat
  | [] => 0
  | byte :: bytes => byte.toNat + 256 * ofLe bytes

@[simp] theorem length_le (width n : Nat) : (le width n).length = width := by
  induction width generalizing n with
  | zero => rfl
  | succ width ih => simp [le, ih]

theorem ofLe_le (h : n < 256 ^ width) : ofLe (le width n) = n := by
  induction width generalizing n with
  | zero =>
    have hzero : n = 0 := by simpa using h
    rw [hzero]
    rfl
  | succ width ih =>
    have hdiv : n / 256 < 256 ^ width := by
      rw [pow_succ] at h
      exact Nat.div_lt_of_lt_mul (by rwa [mul_comm] at h)
    rw [le, ofLe, ih hdiv, UInt8.toNat_ofNat']
    omega

theorem le_ofLe (bytes : Bytes) : le bytes.length (ofLe bytes) = bytes := by
  induction bytes with
  | nil => rfl
  | cons byte bytes ih =>
    have hlow : UInt8.ofNat (byte.toNat + 256 * ofLe bytes) = byte := by
      apply UInt8.toNat_inj.mp
      have hbyte := byte.toNat_lt
      rw [UInt8.toNat_ofNat']
      omega
    have hhigh : (byte.toNat + 256 * ofLe bytes) / 256 = ofLe bytes := by
      have hbyte := byte.toNat_lt
      omega
    rw [length_cons, le, ofLe, hlow, hhigh, ih]

/-- The low `width` bytes of a number, most significant first. -/
def be (width n : Nat) : Bytes := (le width n).reverse

def ofBe (bytes : Bytes) : Nat := ofLe bytes.reverse

@[simp] theorem length_be (width n : Nat) : (be width n).length = width := by
  rw [be, length_reverse, length_le]

theorem ofBe_be (h : n < 256 ^ width) : ofBe (be width n) = n := by
  rw [ofBe, be, reverse_reverse, ofLe_le h]

theorem be_ofBe (h : bytes.length = width) : be width (ofBe bytes) = bytes := by
  rw [be, ofBe, ← h, ← length_reverse, le_ofLe, reverse_reverse]

/-! ## Slices -/

def slice (bytes : Bytes) (start length : Nat) : Bytes :=
  (bytes.drop start).take length

theorem length_slice (h : start + length ≤ bytes.length) :
    (slice bytes start length).length = length := by
  rw [slice, length_take, length_drop]
  omega

theorem slice_append_left (right : Bytes) (h : start + length ≤ left.length) :
    slice (left ++ right) start length = slice left start length := by
  rw [slice, slice, drop_append_of_le_length (by omega),
    take_append_of_le_length (by rw [length_drop]; omega)]

theorem slice_append_right (right : Bytes) (h : left.length ≤ start) :
    slice (left ++ right) start length = slice right (start - left.length) length := by
  rw [slice, slice, drop_append, drop_eq_nil_of_le h, nil_append]

theorem slice_start (left right : Bytes) (h : left.length = length) :
    slice (left ++ right) 0 length = left := by
  rw [slice, drop_zero, ← h, take_left]

theorem slice_field {field : Bytes} (right : Bytes) (hleft : left.length = start)
    (hfield : field.length = length) : slice (left ++ (field ++ right)) start length = field := by
  rw [slice_append_right _ hleft.le, hleft, Nat.sub_self, slice_start _ _ hfield]

theorem slice_succ (h : start < bytes.length) (length : Nat) :
    slice bytes start (length + 1) = bytes.getD start 0 :: slice bytes (start + 1) length := by
  rw [slice, slice, drop_eq_getElem_cons h, take_succ_cons,
    getD_eq_getElem?_getD, List.getElem?_eq_getElem h, Option.getD_some]

theorem slice_append_drop (bytes : Bytes) (start length : Nat) :
    slice bytes start length ++ bytes.drop (start + length) = bytes.drop start := by
  rw [slice, ← drop_drop, take_append_drop]

theorem slice_all (bytes : Bytes) (h : bytes.length ≤ length) : slice bytes 0 length = bytes := by
  rw [slice, drop_zero, take_of_length_le h]

theorem slice_slice (bytes : Bytes) {inner size : Nat} (h : inner + size ≤ length) :
    slice (slice bytes start length) inner size = slice bytes (start + inner) size := by
  rw [slice, slice, slice, drop_take, take_take, drop_drop, Nat.min_eq_left (by omega)]

section

variable {ι : Type} {block : ι → Bytes} {size : Nat} {items : List ι}

theorem length_flatMap (hsize : ∀ item ∈ items, (block item).length = size) :
    (items.flatMap block).length = items.length * size := by
  rw [List.length_flatMap, map_congr_left hsize]
  simp

theorem slice_flatMap (hsize : ∀ item ∈ items, (block item).length = size) {index : Nat}
    {item : ι} (h : items[index]? = some item) :
    slice (items.flatMap block) (index * size) size = block item := by
  induction items generalizing index with
  | nil => cases h
  | cons first items ih =>
    have hfirst := hsize first mem_cons_self
    rw [flatMap_cons]
    cases index with
    | zero =>
      cases h
      rw [Nat.zero_mul]
      exact slice_start _ _ hfirst
    | succ index =>
      rw [slice_append_right _ (by rw [hfirst, Nat.succ_mul]; omega), hfirst, Nat.succ_mul,
        Nat.add_sub_cancel]
      exact ih (fun item hmem => hsize item (mem_cons_of_mem _ hmem)) h

end

/-! ## Readers -/

abbrev Reader (ε α : Type) := StateT Bytes (Except ε) α

section

variable {ε α β : Type} {reader : Reader ε α} {next : α → Reader ε β} {value : α}
  {result : Option β} {condition : Bool} {items : List α} {encode : List α → α → Except ε Bytes}
  {read : List α → Reader ε α} {done : List α}

def require (condition : Bool) (error : ε) : Reader ε Unit := fun bytes =>
  if condition then .ok ((), bytes) else .error error

/-- The next `length` bytes. -/
def take (length : Nat) (error : ε) : Reader ε Bytes := fun bytes =>
  if length ≤ bytes.length then .ok (bytes.take length, bytes.drop length) else .error error

/-- What a reader does on every input that starts with these bytes: it takes exactly
them and yields the value, or it fails. -/
def Yields (reader : Reader ε α) (bytes : Bytes) : Option α → Prop
  | some value => ∀ rest, reader (bytes ++ rest) = .ok (value, rest)
  | none => ∀ rest, ∃ error, reader (bytes ++ rest) = .error error

abbrev Reads (reader : Reader ε α) (bytes : Bytes) (value : α) : Prop :=
  Yields reader bytes (some value)

abbrev Fails (reader : Reader ε α) (bytes : Bytes) : Prop := Yields reader bytes none

theorem reads_pure (value : α) : Reads (pure value : Reader ε α) [] value :=
  fun _ => rfl

theorem bind_apply (reader : Reader ε α) (next : α → Reader ε β) (bytes : Bytes) :
    (reader >>= next) bytes = reader bytes >>= fun result => next result.1 result.2 :=
  rfl

theorem Reads.bind {bytes' : Bytes} (h : Reads reader bytes value)
    (h' : Yields (next value) bytes' result) :
    Yields (reader >>= next) (bytes ++ bytes') result := by
  have hfirst (rest : Bytes) :
      (reader >>= next) (bytes ++ bytes' ++ rest) = next value (bytes' ++ rest) := by
    rw [append_assoc, bind_apply, h]
    rfl
  cases result with
  | none | some value' => exact fun rest => hfirst rest ▸ h' rest

theorem Reads.bind_nil (h : Reads reader bytes value) (h' : Yields (next value) [] result) :
    Yields (reader >>= next) bytes result := by
  have hboth := h.bind h'
  rwa [append_nil] at hboth

theorem Reads.map (h : Reads reader bytes value) (f : α → β) :
    Reads (reader >>= fun read => pure (f read)) bytes (f value) :=
  h.bind_nil (reads_pure (f value))

theorem Fails.bind (h : Fails reader bytes) (next : α → Reader ε β) (bytes' : Bytes) :
    Fails (reader >>= next) (bytes ++ bytes') := by
  intro rest
  obtain ⟨error, herror⟩ := h (bytes' ++ rest)
  refine ⟨error, ?_⟩
  rw [append_assoc, bind_apply, herror]
  rfl

theorem reads_require (h : condition = true) (error : ε) :
    Reads (require condition error) [] () := by
  intro rest
  rw [h]
  rfl

theorem fails_require (h : condition = false) (error : ε) : Fails (require condition error) [] := by
  intro rest
  rw [h]
  exact ⟨error, rfl⟩

theorem Yields.require_bind {error : ε} {next : Unit → Reader ε β} (h : condition = true)
    (h' : Yields (next ()) bytes result) : Yields (require condition error >>= next) bytes result :=
  (reads_require h error).bind h'

theorem reads_take (h : bytes.length = length) (error : ε) :
    Reads (take length error) bytes bytes := by
  intro rest
  unfold take
  rw [if_pos (by rw [length_append]; omega), ← h, take_left, drop_left]

/-! ## Sequences

An encoder and a reader of the items of a sequence may look at the items before. -/

def repeated (read : List α → Reader ε α) : Nat → List α → Reader ε (List α)
  | 0, done => pure done
  | count + 1, done => do
      let item ← read done
      repeated read count (done ++ [item])

def encodeAll (encode : List α → α → Except ε Bytes) : List α → List α → Except ε Bytes
  | _, [] => .ok []
  | done, item :: items => do
      let bytes ← encode done item
      let rest ← encodeAll encode (done ++ [item]) items
      return bytes ++ rest

theorem ok_bind (value : α) (next : α → Except ε β) :
    ((Except.ok value : Except ε α) >>= next) = next value :=
  rfl

theorem bind_eq_ok {result : Except ε α} {next : α → Except ε β} {value : β}
    (h : (result >>= next) = .ok value) :
    ∃ middle, result = .ok middle ∧ next middle = .ok value := by
  cases result with
  | error error => cases h
  | ok middle => exact ⟨middle, rfl, h⟩

theorem foldlM_invariant (invariant : β → Prop) {step : β → α → Except ε β} {start result : β}
    (hstart : invariant start)
    (hstep : ∀ item ∈ items, ∀ before after, invariant before → step before item = .ok after →
      invariant after) (h : items.foldlM step start = .ok result) : invariant result := by
  induction items generalizing start with
  | nil =>
    cases h
    exact hstart
  | cons item items ih =>
    obtain ⟨middle, hmid, h⟩ := bind_eq_ok h
    exact ih (hstep item mem_cons_self start middle hstart hmid)
      (fun other hmem => hstep other (mem_cons_of_mem _ hmem)) h

theorem reads_repeated (h : encodeAll encode done items = .ok bytes)
    (hitem : ∀ done, ∀ item ∈ items, ∀ bytes, encode done item = .ok bytes →
      Reads (read done) bytes item) :
    Reads (repeated read items.length done) bytes (done ++ items) := by
  induction items generalizing done bytes with
  | nil =>
    cases h
    rw [append_nil]
    exact reads_pure done
  | cons item items ih =>
    obtain ⟨first, hfirst, h⟩ := bind_eq_ok h
    obtain ⟨rest, hrest, h⟩ := bind_eq_ok h
    cases h
    have hread := hitem done item mem_cons_self first hfirst
    have hreads := ih hrest fun done item hmem => hitem done item (mem_cons_of_mem _ hmem)
    rw [append_assoc] at hreads
    exact hread.bind hreads

/-- A sequence is encoded when each item is, after those before it. -/
theorem encodeAll_ok {encode : List α → α → Except ε Bytes} {bound : Nat} {done items : List α}
    (h : ∀ before item after, items = before ++ item :: after →
      ∃ bytes, encode (done ++ before) item = .ok bytes ∧ bytes.length ≤ bound) :
    ∃ bytes, encodeAll encode done items = .ok bytes ∧ bytes.length ≤ items.length * bound := by
  induction items generalizing done with
  | nil => exact ⟨[], rfl, Nat.zero_le _⟩
  | cons item items ih =>
    obtain ⟨first, hfirst, hfirstLength⟩ := h [] item items rfl
    rw [append_nil] at hfirst
    obtain ⟨rest, hrest, hrestLength⟩ := @ih (done ++ [item]) fun before other after hitems => by
        have hnext := h (item :: before) other after (by rw [hitems]; rfl)
        rwa [append_cons] at hnext
    refine ⟨first ++ rest, ?_, ?_⟩
    · rw [encodeAll, hfirst]
      rw [hrest]
      rfl
    · rw [length_append, length_cons, Nat.succ_mul]
      omega

/-- One item that cannot be read back makes the whole sequence unreadable. -/
theorem fails_repeated {readable : α → Prop} (h : encodeAll encode done items = .ok bytes)
    (hread : ∀ done item bytes, encode done item = .ok bytes → readable item →
      Reads (read done) bytes item)
    (hfail : ∀ done item bytes, encode done item = .ok bytes → ¬ readable item →
      Fails (read done) bytes) (hsome : ∃ item ∈ items, ¬ readable item) :
    Fails (repeated read items.length done) bytes := by
  induction items generalizing done bytes with
  | nil =>
    obtain ⟨item, hmem, _⟩ := hsome
    exact (not_mem_nil hmem).elim
  | cons item items ih =>
    obtain ⟨first, hfirst, h⟩ := bind_eq_ok h
    obtain ⟨rest, hrest, h⟩ := bind_eq_ok h
    cases h
    by_cases hitem : readable item
    · refine (hread done item first hfirst hitem).bind (ih hrest ?_)
      obtain ⟨other, hmem, hother⟩ := hsome
      rcases mem_cons.mp hmem with rfl | hmem
      · exact (hother hitem).elim
      · exact ⟨other, hmem, hother⟩
    · exact (hfail done item first hfirst hitem).bind _ rest

/-! ## A reader that follows another -/

/-- Where the first reader succeeds, the second takes the same bytes, and what they yield is
related. -/
def Follows (relation : α → β → Prop) (reader : Reader ε α) (other : Reader ε β) : Prop :=
  ∀ bytes value rest, reader bytes = .ok (value, rest) →
    ∃ value', other bytes = .ok (value', rest) ∧ relation value value'

variable {γ δ : Type} {relation : α → β → Prop} {relation' : γ → δ → Prop} {other : Reader ε β}

theorem Follows.refl (reader : Reader ε α) : Follows Eq reader reader :=
  fun _ _ _ h => ⟨_, h, rfl⟩

theorem follows_pure {a : α} {b : β} (h : relation a b) :
    Follows relation (pure a : Reader ε α) (pure b) := by
  intro bytes value rest heq
  cases heq
  exact ⟨b, rfl, h⟩

theorem Follows.bind {next : α → Reader ε γ} {next' : β → Reader ε δ}
    (h : Follows relation reader other)
    (hnext : ∀ a b, relation a b → Follows relation' (next a) (next' b)) :
    Follows relation' (reader >>= next) (other >>= next') := by
  intro bytes value rest heq
  obtain ⟨⟨first, between⟩, hfirst, heq⟩ := bind_eq_ok heq
  obtain ⟨second, hsecond, hrelated⟩ := h _ _ _ hfirst
  obtain ⟨value', hvalue', hvalues⟩ := hnext first second hrelated _ _ _ heq
  refine ⟨value', ?_, hvalues⟩
  rw [bind_apply, hsecond]
  exact hvalue'

theorem Follows.require_bind {next : Unit → Reader ε α} {error : ε}
    (h : condition = true → Follows relation (next ()) other) :
    Follows relation (require condition error >>= next) other := by
  intro bytes value rest heq
  cases hcond : condition with
  | false =>
    rw [hcond] at heq
    cases heq
  | true =>
    rw [hcond] at heq
    exact h hcond _ _ _ heq

/-- A test of what was read, and a value made of it. -/
theorem Follows.checked {check : α → Bool} {error : ε} {f : α → γ}
    (h : Follows relation reader other) :
    Follows (fun _ b => ∃ a, relation a b ∧ check a = true)
      (reader >>= fun a => require (check a) error >>= fun _ => pure (f a)) other := by
  intro bytes value rest heq
  obtain ⟨⟨first, between⟩, hfirst, heq⟩ := bind_eq_ok heq
  obtain ⟨second, hsecond, hrelated⟩ := h _ _ _ hfirst
  cases hcheck : check first with
  | false =>
    simp only [hcheck] at heq
    cases heq
  | true =>
    simp only [hcheck] at heq
    cases heq
    exact ⟨second, hsecond, first, hrelated, hcheck⟩

theorem Follows.repeated {read' : List β → Reader ε β}
    (h : ∀ done done', Follows relation (read done) (read' done')) (count : Nat)
    {done : List α} {done' : List β} (hdone : Forall₂ relation done done') :
    Follows (Forall₂ relation) (repeated read count done) (repeated read' count done') := by
  induction count generalizing done done' with
  | zero => exact follows_pure hdone
  | succ count ih =>
    refine (h done done').bind fun a b hrelated => ih ?_
    exact List.rel_append hdone (.cons hrelated .nil)

end

end Disp.Library.Codec
