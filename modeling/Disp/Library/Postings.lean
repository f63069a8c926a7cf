import Disp.Library.Codec
import Mathlib.Data.List.AList
import Mathlib.Data.List.Forall2
import Mathlib.Data.List.Induction

/-!
# Posting lists

Indexes over a list of rows: one map per column, from the key of a row to the ascending
positions of the rows with that key.  A column may be left out, and may demand that no two
rows share a key; the key of a row may be undefined.  `addRows_eq_ok_iff` says for which
rows the indexes can be built, `addRows_exact` what they then hold.
-/

namespace Disp.Library.Postings

open Disp.Library.Codec List

variable {ρ κ ε : Type} {check : ρ → Except ε Unit} {done : List ρ} {row : ρ} {rows : List ρ}
  {other : ρ} {i position : Nat}

/-! ## Columns -/

structure Column (ρ κ ε : Type) where
  keyed : Bool
  unique : Bool
  key : ρ → Except ε κ
  /-- The complaint about a second row with the same key. -/
  duplicate : ε

def Column.HasKey (column : Column ρ κ ε) (key : κ) (row : ρ) : Prop :=
  column.key row = .ok key

/-- A row that can follow the rows already filed. -/
def Column.Admits (column : Column ρ κ ε) (done : List ρ) (row : ρ) : Prop :=
  column.keyed = true → ∃ key, column.HasKey key row ∧
    (column.unique = true → ∀ other ∈ done, ¬ column.HasKey key other)

/-- A row that can follow the rows already filed, in every index. -/
def Admits (check : ρ → Except ε Unit) (columns : List (Column ρ κ ε)) (done : List ρ)
    (row : ρ) : Prop :=
  check row = .ok () ∧ ∀ column ∈ columns, column.Admits done row

/-- Rows that can be filed one after another, behind the rows already filed. -/
def Indexable (check : ρ → Except ε Unit) (columns : List (Column ρ κ ε)) :
    List ρ → List ρ → Prop
  | _, [] => True
  | done, row :: rows =>
    Admits check columns done row ∧ Indexable check columns (done ++ [row]) rows

/-- Two rows that share no key of a column. -/
def Column.Apart (column : Column ρ κ ε) (row other : ρ) : Prop :=
  ∀ key, column.HasKey key row → ¬ column.HasKey key other

/-- A row that passes the check and has every key. -/
def HasKeys (check : ρ → Except ε Unit) (columns : List (Column ρ κ ε)) (row : ρ) : Prop :=
  check row = .ok () ∧ ∀ column ∈ columns, column.keyed = true → ∃ key, column.HasKey key row

variable {columns : List (Column ρ κ ε)}

theorem admits_iff :
    Admits check columns done row ↔ HasKeys check columns row ∧
      ∀ column ∈ columns, column.keyed = true → column.unique = true →
        ∀ other ∈ done, column.Apart other row := by
  constructor
  · rintro ⟨hcheck, hadmits⟩
    refine ⟨⟨hcheck, fun column hmem hkeyed => ?_⟩, ?_⟩
    · obtain ⟨key, hkey, -⟩ := hadmits column hmem hkeyed
      exact ⟨key, hkey⟩
    · intro column hmem hkeyed huniq other hother found hfound hrow
      obtain ⟨key, hkey, hnone⟩ := hadmits column hmem hkeyed
      rw [Column.HasKey] at hkey hrow
      rw [hkey] at hrow
      cases hrow
      exact hnone huniq other hother hfound
  · rintro ⟨⟨hcheck, hkeys⟩, hapart⟩
    refine ⟨hcheck, fun column hmem hkeyed => ?_⟩
    obtain ⟨key, hkey⟩ := hkeys column hmem hkeyed
    exact ⟨key, hkey, fun huniq other hother hfound =>
      hapart column hmem hkeyed huniq other hother key hfound hkey⟩

theorem indexable_concat :
    Indexable check columns done (rows ++ [row]) ↔
      Indexable check columns done rows ∧ Admits check columns (done ++ rows) row := by
  induction rows generalizing done with
  | nil => simp [Indexable]
  | cons head rows ih =>
    rw [cons_append, Indexable, Indexable, ih, and_assoc, append_assoc, singleton_append]

/-- Without the order of filing: every row has its keys, and unique columns no key twice. -/
theorem indexable_iff :
    Indexable check columns [] rows ↔ (∀ row ∈ rows, HasKeys check columns row) ∧
      ∀ column ∈ columns, column.keyed = true → column.unique = true →
        rows.Pairwise column.Apart := by
  induction rows using List.reverseRecOn with
  | nil => simp [Indexable]
  | append_singleton rows row ih =>
    rw [indexable_concat, ih, nil_append, admits_iff]
    simp only [pairwise_append, pairwise_singleton, mem_append, mem_singleton, forall_eq, true_and]
    constructor
    · rintro ⟨⟨hrows, hpairwise⟩, hrow, hapart⟩
      refine ⟨?_, fun column hmem hkeyed huniq =>
        ⟨hpairwise column hmem hkeyed huniq, hapart column hmem hkeyed huniq⟩⟩
      rintro other (hother | rfl)
      · exact hrows other hother
      · exact hrow
    · rintro ⟨hrows, hpairs⟩
      exact ⟨⟨fun other hother => hrows other (.inl hother), fun column hmem hkeyed huniq =>
          (hpairs column hmem hkeyed huniq).1⟩, hrows row (.inr rfl),
        fun column hmem hkeyed huniq => (hpairs column hmem hkeyed huniq).2⟩

theorem Indexable.sublist {kept : List ρ} (h : Indexable check columns [] rows)
    (hkept : kept.Sublist rows) : Indexable check columns [] kept := by
  rw [indexable_iff] at h ⊢
  exact ⟨fun row hrow => h.1 row (hkept.subset hrow),
    fun column hmem hkeyed huniq => (h.2 column hmem hkeyed huniq).sublist hkept⟩

variable {column : Column ρ κ ε}

theorem Column.Apart.symm (h : column.Apart row other) : column.Apart other row :=
  fun key hother hrow => h key hrow hother

theorem Column.apart_of_pairwise (h : rows.Pairwise column.Apart) {j : Nat}
    (hrow : rows[i]? = some row) (hother : rows[j]? = some other) (hne : i ≠ j) :
    column.Apart row other := by
  obtain ⟨hi, rfl⟩ := List.getElem?_eq_some_iff.mp hrow
  obtain ⟨hj, rfl⟩ := List.getElem?_eq_some_iff.mp hother
  rw [pairwise_iff_getElem] at h
  rcases Nat.lt_or_gt_of_ne hne with hlt | hlt
  · exact h i j hi hj hlt
  · exact (h j i hj hi hlt).symm

theorem Column.pairwise_set (h : rows.Pairwise column.Apart)
    (hrow : ∀ {i other}, rows[i]? = some other → i ≠ position → column.Apart other row) :
    (rows.set position row).Pairwise column.Apart := by
  rw [pairwise_iff_getElem] at h ⊢
  intro i j hi hj hlt
  simp only [length_set] at hi hj
  rw [getElem_set, getElem_set]
  split
  · split
    · omega
    · exact (hrow (List.getElem?_eq_getElem hj) (by omega)).symm
  · split
    · exact hrow (List.getElem?_eq_getElem hi) (by omega)
    · exact h i j hi hj hlt

theorem Indexable.set (h : Indexable check columns [] rows) (hkeys : HasKeys check columns row)
    (hrow : ∀ column ∈ columns, column.keyed = true → column.unique = true →
      ∀ {i other}, rows[i]? = some other → i ≠ position → column.Apart other row) :
    Indexable check columns [] (rows.set position row) := by
  rw [indexable_iff] at h ⊢
  refine ⟨fun other hother => ?_, fun column hmem hkeyed huniq => ?_⟩
  · rcases mem_or_eq_of_mem_set hother with hother | rfl
    · exact h.1 other hother
    · exact hkeys
  · exact Column.pairwise_set (h.2 column hmem hkeyed huniq) (hrow column hmem hkeyed huniq)

/-! ## Indexes -/

variable [DecidableEq κ]

abbrev Index (κ : Type) [DecidableEq κ] := AList fun _ : κ => List Nat

def postings (index : Index κ) (key : κ) : List Nat :=
  (index.lookup key).getD []

namespace Column

/-- File one row under its key. -/
def add (column : Column ρ κ ε) (index : Index κ) (position : Nat) (row : ρ) :
    Except ε (Index κ) :=
  if column.keyed then do
    let key ← column.key row
    if column.unique ∧ postings index key ≠ [] then
      .error column.duplicate
    else
      .ok (index.insert key (postings index key ++ [position]))
  else
    .ok index

instance (column : Column ρ κ ε) (key : κ) : DecidablePred (column.HasKey key) := fun row =>
  match h : column.key row with
  | .ok found =>
    decidable_of_iff (found = key) (by rw [HasKey, h]; exact ⟨congrArg _, Except.ok.inj⟩)
  | .error _ => .isFalse (by rw [HasKey, h]; exact fun heq => by cases heq)

end Column

/-- File one row in every index. -/
def addRow : List (Column ρ κ ε) → List (Index κ) → Nat → ρ → Except ε (List (Index κ))
  | column :: columns, index :: indexes, position, row => do
      let index ← column.add index position row
      let indexes ← addRow columns indexes position row
      return index :: indexes
  | _, _, _, _ => .ok []

/-- File rows one after another, each after a check of its own. -/
def addRows (check : ρ → Except ε Unit) (columns : List (Column ρ κ ε)) :
    List (Index κ) → Nat → List ρ → Except ε (List (Index κ))
  | indexes, _, [] => .ok indexes
  | indexes, position, row :: rows => do
      check row
      let indexes ← addRow columns indexes position row
      addRows check columns indexes (position + 1) rows

def build (check : ρ → Except ε Unit) (columns : List (Column ρ κ ε)) (rows : List ρ) :
    Except ε (List (Index κ)) :=
  addRows check columns (columns.map fun _ => ∅) 0 rows

/-! ## Positions -/

variable {index : Index κ} {indexes indexes' : List (Index κ)}

/-- The positions of the rows with a property, the first row standing at `start`. -/
def positions (P : ρ → Prop) [DecidablePred P] : Nat → List ρ → List Nat
  | _, [] => []
  | start, row :: rows =>
    if P row then start :: positions P (start + 1) rows else positions P (start + 1) rows

section Positions

variable {P : ρ → Prop} [DecidablePred P] {start : Nat}

theorem positions_append (start : Nat) (rows others : List ρ) :
    positions P start (rows ++ others) =
      positions P start rows ++ positions P (start + rows.length) others := by
  induction rows generalizing start with
  | nil => simp [positions]
  | cons row rows ih =>
    rw [cons_append, positions, positions, ih, Nat.add_right_comm, Nat.add_assoc start]
    split <;> rfl

theorem mem_positions :
    i ∈ positions P start rows ↔ ∃ j row, rows[j]? = some row ∧ P row ∧ i = start + j := by
  induction rows generalizing start with
  | nil => simp [positions]
  | cons head rows ih =>
    have hsplit : (∃ j row, (head :: rows)[j]? = some row ∧ P row ∧ i = start + j) ↔
        (P head ∧ i = start) ∨ ∃ j row, rows[j]? = some row ∧ P row ∧ i = start + 1 + j := by
      constructor
      · rintro ⟨j, row, hrow, hP, rfl⟩
        cases j with
        | zero =>
          cases hrow
          exact .inl ⟨hP, rfl⟩
        | succ j => exact .inr ⟨j, row, hrow, hP, by omega⟩
      · rintro (⟨hP, rfl⟩ | ⟨j, row, hrow, hP, rfl⟩)
        · exact ⟨0, head, rfl, hP, rfl⟩
        · exact ⟨j + 1, row, hrow, hP, by omega⟩
    rw [hsplit, ← ih, positions]
    split
    · rename_i hP
      simp [hP]
    · rename_i hP
      simp [hP]

theorem positions_eq_nil_iff : positions P start rows = [] ↔ ∀ row ∈ rows, ¬ P row := by
  induction rows generalizing start with
  | nil => simp [positions]
  | cons row rows ih =>
    rw [positions]
    split
    · rename_i hP
      simp [hP]
    · rename_i hP
      simp [hP, ih]

end Positions

/-! ## One column -/

/-- The index of a column over rows: each key with its positions, nothing without a key. -/
def Exact (column : Column ρ κ ε) (rows : List ρ) (index : Index κ) : Prop :=
  ∀ key, postings index key = if column.keyed then positions (column.HasKey key) 0 rows else []

theorem exact_empty (column : Column ρ κ ε) : Exact column [] ∅ := by
  intro key
  simp [postings, positions]

theorem Column.add_eq_ok_iff (h : Exact column done index) (position : Nat) (row : ρ) :
    (∃ index', column.add index position row = .ok index') ↔ column.Admits done row := by
  unfold Column.add Column.Admits
  by_cases hkeyed : column.keyed = true
  · simp only [hkeyed, forall_const]
    cases hkey : column.key row with
    | error error =>
      constructor
      · rintro ⟨index', hindex⟩
        cases hindex
      · rintro ⟨key, hhas, -⟩
        rw [Column.HasKey, hkey] at hhas
        cases hhas
    | ok key =>
      have hpostings : postings index key = [] ↔ ∀ other ∈ done, ¬ column.HasKey key other := by
        rw [h key, if_pos hkeyed, positions_eq_nil_iff]
      have huniq : (∃ found, column.HasKey found row ∧
          (column.unique = true → ∀ other ∈ done, ¬ column.HasKey found other)) ↔
            (column.unique = true → postings index key = []) := by
        rw [hpostings]
        constructor
        · rintro ⟨found, hfound, hnone⟩
          rw [Column.HasKey, hkey] at hfound
          cases hfound
          exact hnone
        · exact fun hnone => ⟨key, hkey, hnone⟩
      rw [huniq]
      change (∃ index', (if column.unique = true ∧ postings index key ≠ [] then
        Except.error column.duplicate else _) = Except.ok index') ↔ _
      split
      · rename_i hduplicate
        refine ⟨fun ⟨_, herror⟩ => (by cases herror), fun hnone => ?_⟩
        exact absurd (hnone hduplicate.1) hduplicate.2
      · rename_i hfree
        refine ⟨fun _ huniq => ?_, fun _ => ⟨_, rfl⟩⟩
        by_contra hne
        exact hfree ⟨huniq, hne⟩
  · simp [hkeyed]

theorem postings_insert (index : Index κ) (key other : κ) (filed : List Nat) :
    postings (index.insert key filed) other =
      if other = key then filed else postings index other := by
  unfold postings
  split
  · rename_i heq
    rw [heq, AList.lookup_insert]
    rfl
  · rename_i hne
    rw [AList.lookup_insert_ne hne]

theorem Column.add_exact {index' : Index κ} (h : Exact column done index)
    (hadd : column.add index done.length row = .ok index') :
    Exact column (done ++ [row]) index' := by
  intro key
  unfold Column.add at hadd
  by_cases hkeyed : column.keyed = true
  · simp only [hkeyed] at hadd ⊢
    obtain ⟨found, hfound, hadd⟩ := bind_eq_ok hadd
    split at hadd
    · cases hadd
    · cases hadd
      have hrow : ∀ {other}, column.HasKey other row ↔ other = found := by
        intro other
        rw [Column.HasKey, hfound]
        exact ⟨fun heq => (Except.ok.inj heq).symm, fun heq => congrArg _ heq.symm⟩
      rw [postings_insert, positions_append, h found, h key, if_pos hkeyed, if_pos hkeyed]
      by_cases heq : key = found
      · subst heq
        simp [positions, hrow]
      · simp [positions, hrow, heq]
  · rw [if_neg hkeyed] at hadd ⊢
    cases hadd
    rw [h key, if_neg hkeyed]

/-! ## All columns, all rows -/

section

variable (h : List.Forall₂ (Exact · done) columns indexes)

include h

theorem addRow_eq_ok_iff (position : Nat) (row : ρ) :
    (∃ indexes', addRow columns indexes position row = .ok indexes') ↔
      ∀ column ∈ columns, column.Admits done row := by
  induction h with
  | nil => simp [addRow]
  | @cons column index columns indexes hexact _ ih =>
    rw [forall_mem_cons, ← ih, ← Column.add_eq_ok_iff hexact position row]
    constructor
    · rintro ⟨indexes', hadd⟩
      obtain ⟨index', hindex, hadd⟩ := bind_eq_ok hadd
      obtain ⟨others, hothers, -⟩ := bind_eq_ok hadd
      exact ⟨⟨index', hindex⟩, others, hothers⟩
    · rintro ⟨⟨index', hindex⟩, others, hothers⟩
      refine ⟨index' :: others, ?_⟩
      rw [addRow, hindex]
      simp only [hothers]
      rfl

theorem addRow_exact (hadd : addRow columns indexes done.length row = .ok indexes') :
    List.Forall₂ (Exact · (done ++ [row])) columns indexes' := by
  induction h generalizing indexes' with
  | nil =>
    cases hadd
    exact .nil
  | @cons column index columns indexes hexact _ ih =>
    obtain ⟨index', hindex, hadd⟩ := bind_eq_ok hadd
    obtain ⟨others, hothers, hadd⟩ := bind_eq_ok hadd
    cases hadd
    exact .cons (Column.add_exact hexact hindex) (ih hothers)

theorem addRows_eq_ok_iff :
    (∃ indexes', addRows check columns indexes done.length rows = .ok indexes') ↔
      Indexable check columns done rows := by
  induction rows generalizing done indexes with
  | nil => simp [addRows, Indexable]
  | cons row rows ih =>
    rw [Indexable, Admits, ← addRow_eq_ok_iff h done.length row]
    constructor
    · rintro ⟨last, hrun⟩
      obtain ⟨⟨⟩, hcheck, hrun⟩ := bind_eq_ok hrun
      obtain ⟨between, hbetween, hrun⟩ := bind_eq_ok hrun
      have hexact := addRow_exact h hbetween
      rw [← length_singleton (a := row), ← length_append] at hrun
      exact ⟨⟨hcheck, between, hbetween⟩, (ih hexact).mp ⟨last, hrun⟩⟩
    · rintro ⟨⟨hcheck, between, hbetween⟩, hrest⟩
      have hexact := addRow_exact h hbetween
      obtain ⟨last, hrun⟩ := (ih hexact).mpr hrest
      rw [length_append, length_singleton] at hrun
      refine ⟨last, ?_⟩
      rw [addRows, hcheck]
      simp only [bind, Except.bind, hbetween, hrun]

theorem addRows_exact (hrun : addRows check columns indexes done.length rows = .ok indexes') :
    List.Forall₂ (Exact · (done ++ rows)) columns indexes' := by
  induction rows generalizing done indexes with
  | nil =>
    cases hrun
    rwa [append_nil]
  | cons row rows ih =>
    obtain ⟨⟨⟩, -, hrun⟩ := bind_eq_ok hrun
    obtain ⟨between, hbetween, hrun⟩ := bind_eq_ok hrun
    rw [← length_singleton (a := row), ← length_append] at hrun
    have hexact := ih (addRow_exact h hbetween) hrun
    rwa [append_assoc, singleton_append] at hexact

end

theorem exact_initial (columns : List (Column ρ κ ε)) :
    List.Forall₂ (Exact · []) columns (columns.map fun _ => (∅ : Index κ)) := by
  induction columns with
  | nil => exact .nil
  | cons column columns ih => exact .cons (exact_empty column) ih

theorem build_eq_ok_iff (check : ρ → Except ε Unit) (columns : List (Column ρ κ ε))
    (rows : List ρ) :
    (∃ indexes, build check columns rows = .ok indexes) ↔ Indexable check columns [] rows :=
  addRows_eq_ok_iff (exact_initial columns)

theorem build_exact (h : build check columns rows = .ok indexes) :
    List.Forall₂ (Exact · rows) columns indexes :=
  addRows_exact (exact_initial columns) h

theorem Exact.mem_postings_iff (h : Exact column rows index) (hkeyed : column.keyed = true)
    {key : κ} : i ∈ postings index key ↔ ∃ row, rows[i]? = some row ∧ column.HasKey key row := by
  rw [h key, if_pos hkeyed, mem_positions]
  constructor
  · rintro ⟨j, row, hrow, hkey, rfl⟩
    exact ⟨row, by rwa [Nat.zero_add], hkey⟩
  · rintro ⟨row, hrow, hkey⟩
    exact ⟨i, row, hrow, hkey, (Nat.zero_add i).symm⟩

end Disp.Library.Postings
