import Mathlib.Data.List.Nodup
import Mathlib.Logic.Relation

/-!
# Finishing orders

The nodes of a graph in the order in which a depth-first search finished them, the last
one first, each with its successors.  The order is topological when every successor of a
node had been finished before it; such a graph is closed and has no cycle.
-/

namespace Disp.Library.FinishOrder

open List

variable {α : Type*} {order : List (α × List α)} {a b : α}

def Topological : List (α × List α) → Prop
  | [] => True
  | (_, next) :: rest => (∀ b ∈ next, b ∈ rest.map Prod.fst) ∧ Topological rest

/-- One step along the listed successors. -/
def Edge (order : List (α × List α)) (a b : α) : Prop :=
  ∃ next, (a, next) ∈ order ∧ b ∈ next

theorem Topological.mem_of_edge (h : Topological order) (hedge : Edge order a b) :
    b ∈ order.map Prod.fst := by
  induction order with
  | nil => simp [Edge] at hedge
  | cons entry rest ih =>
    obtain ⟨next, hmem, hnext⟩ := hedge
    rw [map_cons]
    rcases mem_cons.mp hmem with rfl | hmem
    · exact mem_cons_of_mem _ (h.1 b hnext)
    · exact mem_cons_of_mem _ (ih h.2 ⟨next, hmem, hnext⟩)

/-- A step goes to a node finished earlier. -/
theorem Topological.idxOf_lt_of_edge [DecidableEq α] (h : Topological order)
    (hnodup : (order.map Prod.fst).Nodup) (hedge : Edge order a b) :
    (order.map Prod.fst).idxOf a < (order.map Prod.fst).idxOf b := by
  induction order with
  | nil => simp [Edge] at hedge
  | cons entry rest ih =>
    obtain ⟨next, hmem, hnext⟩ := hedge
    rw [map_cons, nodup_cons] at hnodup
    -- the successor is never the front node, so both positions are counted from the tail
    have hne : b ∈ rest.map Prod.fst → entry.1 ≠ b := fun hb heq => hnodup.1 (heq ▸ hb)
    rcases mem_cons.mp hmem with rfl | hmem
    · rw [map_cons, idxOf_cons_self, idxOf_cons_ne _ (hne (h.1 b hnext))]
      exact Nat.succ_pos _
    · have hedge : Edge rest a b := ⟨next, hmem, hnext⟩
      have hfront : entry.1 ≠ a := fun heq =>
        hnodup.1 (heq ▸ mem_map.mpr ⟨(a, next), hmem, rfl⟩)
      rw [map_cons, idxOf_cons_ne _ hfront, idxOf_cons_ne _ (hne (h.2.mem_of_edge hedge))]
      exact Nat.succ_lt_succ (ih h.2 hnodup.2 hedge)

theorem Topological.acyclic [DecidableEq α] (h : Topological order)
    (hnodup : (order.map Prod.fst).Nodup) (a : α) : ¬ Relation.TransGen (Edge order) a a := by
  intro hcycle
  have hlt := hcycle.lift _ fun _ _ hedge => h.idxOf_lt_of_edge hnodup hedge
  rw [Relation.transGen_eq_self] at hlt
  exact Nat.lt_irrefl _ hlt

end Disp.Library.FinishOrder
