import Mathlib.Data.List.Forall2

/-!
# Pointwise related lists

Members and positions of two lists related by `List.Forall₂`.
-/

namespace Disp.Library.Pointwise

variable {α β : Type*} {R : α → β → Prop} {as : List α} {bs : List β} {a : α}

theorem exists_of_mem_right (h : List.Forall₂ R as bs) {b : β} (hb : b ∈ bs) : ∃ a ∈ as, R a b := by
  induction h with
  | nil => cases hb
  | @cons a _ as _ hhead _ ih =>
    rcases List.mem_cons.mp hb with rfl | hb
    · exact ⟨a, List.mem_cons_self, hhead⟩
    · obtain ⟨a, ha, hr⟩ := ih hb
      exact ⟨a, List.mem_cons_of_mem _ ha, hr⟩

theorem exists_getElem?_right (h : List.Forall₂ R as bs) {i : Nat} (ha : as[i]? = some a) :
    ∃ b, bs[i]? = some b ∧ R a b ∧ (a, b) ∈ as.zip bs := by
  induction h generalizing i with
  | nil => simp at ha
  | @cons head other as bs hhead _ ih =>
    cases i with
    | zero =>
      cases ha
      exact ⟨other, rfl, hhead, by simp⟩
    | succ i =>
      obtain ⟨b, hb, hr, hmem⟩ := ih ha
      exact ⟨b, hb, hr, by simp [hmem]⟩

end Disp.Library.Pointwise
