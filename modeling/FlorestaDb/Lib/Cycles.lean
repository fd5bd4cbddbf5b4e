import Mathlib.Data.Fintype.Card
import Mathlib.Logic.Relation
import Mathlib.Data.Set.Finite.Basic

/-! Walks along a relation: over finitely many places a walk ends exactly when it runs into
no cycle. -/
namespace FlorestaDb.Cycles
open Relation

variable {α : Type*} {r : α → α → Prop} {a x : α}

theorem acc_of_path (h : Acc (fun y x => r x y) a) (hx : ReflTransGen r a x) :
    Acc (fun y x => r x y) x := by
  induction hx with
  | refl => exact h
  | tail _ hstep ih => exact ih.inv hstep

/-- No cycle starts at a place where every walk ends. -/
theorem not_cycle_of_acc (h : Acc (fun y x => r x y) a) : ¬TransGen r a a := by
  induction h with
  | intro x _ ih =>
    intro hcycle
    -- the cycle, moved on by its first step, starts at the next place
    obtain ⟨y, hstep, hback⟩ := TransGen.head'_iff.mp hcycle
    exact ih y hstep (TransGen.tail' hback hstep)

theorem acc_iff_acyclic (hfin : {x | ReflTransGen r a x}.Finite) :
    Acc (fun y x => r x y) a ↔ ∀ x, ReflTransGen r a x → ¬TransGen r x x := by
  constructor
  · intro h x hx
    exact not_cycle_of_acc (acc_of_path h hx)
  · intro h
    let after : {x | ReflTransGen r a x} → {x | ReflTransGen r a x} → Prop :=
      fun y x => TransGen r x.1 y.1
    have hfinite : Finite {x | ReflTransGen r a x} := hfin
    have htrans : IsTrans _ after := ⟨fun _ _ _ hyx hzy => hzy.trans hyx⟩
    have hirrefl : Std.Irrefl after := ⟨fun x hcycle => h x.1 x.2 hcycle⟩
    have hwf : WellFounded after := Finite.wellFounded_of_trans_of_irrefl after
    have hall : ∀ x : {x | ReflTransGen r a x}, Acc (fun y x => r x y) x.1 := by
      intro x
      induction x using hwf.induction with
      | _ x ih =>
        constructor
        intro y hstep
        exact ih ⟨y, x.2.tail hstep⟩ (.single hstep)
    exact hall ⟨a, .refl⟩

end FlorestaDb.Cycles
