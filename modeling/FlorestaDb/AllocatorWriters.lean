import FlorestaDb.AllocatorShared

/-! What the allocator does under its write guard, while other threads release allocations on the
sealed pages: a page is marked, the files grow, the open page is sealed. -/
namespace FlorestaDb.Allocator
open Program Program.Prog

variable {L : Layout} {t : Tid} {c c₁ : Cells} {w : World}

section Claim
variable {P : Cells → Prop} {E : Error → Cells → Prop} {fuel n : Nat}

end Claim

section Growth
variable {fuel old new requestedBytes : Nat}

/-- A page that counted nothing is marked. -/
structure Marked (b : Nat) (c : Cells) : Prop where
  marked : c.counts b = claimed
  empty : liveIn c.live b = 0
  published : c.highWater < growingBit

end Growth

section Install
variable {fuel requestedBytes b used live : Nat}

/-- The next step opens the marked page. -/
structure Ready (b : Nat) (word : UInt64) (c : Cells) : Prop extends Marked b c where
  word : c.currentWord = word

end Install

section Seal
variable {fuel b used live : Nat} {next : Option Nat} {E : Error → Cells → Prop}

/-- The page the run goes on in is published and still counts nothing. -/
def NextFree (next : Option Nat) (c : Cells) : Prop :=
  ∀ n, next = some n → n < c.pages ∧ c.counts n = 0

theorem NextFree.drained (h : NextFree next c) (hd : Drained c c₁) : NextFree next c₁ := by
  intro n hn
  refine ⟨?_, hd.zero (h n hn).2⟩
  rw [Cells.pages, hd.highWater]
  exact (h n hn).1

end Seal

end FlorestaDb.Allocator
