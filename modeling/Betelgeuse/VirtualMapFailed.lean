/-
A failed allocation leaves the map as it was.

An allocation ends in one of four blocks (`Allocating`, `allocating_plan`); the other two,
`cut` and `unlink`, belong to the functions that free.  The four commit: they return 0, or
they have written nothing (`Commits`).  `INSERT` is the only one of them that can fail, and
it looks for a slot before its first write.  So an allocation that returns a non-zero code
has not touched the map (`failedAlloc_unchanged`), and this holds on every map: entries may
overlap, and the list may end in a loop.
-/
import Betelgeuse.VirtualMapRun

open HeapList WordBitmap

namespace Betelgeuse

/-- A call of one of the twelve `page_virtual_alloc` functions. -/
def Call.Allocates : Call → Prop
  | .free _ | .freeMultiple .. => False
  | _ => True

theorem Call.Allocates.ne_freeMultiple {c : Call} (hc : c.Allocates) (frame count : UInt64) :
    c ≠ .freeMultiple frame count := by
  rintro rfl
  exact hc

namespace VirtualAddressMap

/-- Whatever the map, the block returns 0 or leaves the map as it is. -/
def Block.Commits (b : Block) : Prop :=
  ∀ (s : VirtualAddressMap) (r : Option ℤ × VirtualAddressMap),
    s.perform b = some r → r.1 ≠ some 0 → r.2 = s

/-- The block is one of the four in which an allocation ends. -/
def Block.Allocating : Block → Prop
  | .ret _ | .growUp .. | .growDown .. => True
  | .insert _ _ _ full => full = some (-1)
  | .cut .. | .unlink .. => False

/-- The plan, if there is one, ends in such a block. -/
def AllocatingPlan (o : Option Plan) : Prop := ∀ p ∈ o, p.block.Allocating

theorem Block.Commits.ret (code : ℤ) : (Block.ret code).Commits := by
  intro s r hr _
  obtain rfl := Option.some.inj hr
  rfl

/-- Growing an entry upwards never fails. -/
theorem Block.Commits.growUp (c : Cell Slot) (bytes top : UInt64) :
    (Block.growUp c bytes top).Commits := by
  intro s r hr hcode
  refine absurd ?_ hcode
  obtain ⟨t, -, hr⟩ := Option.bind_eq_some_iff.mp hr
  dsimp only at hr
  split at hr
  · obtain rfl := Option.some.inj hr
    rfl
  · split at hr
    · obtain rfl := Option.some.inj hr
      rfl
    · obtain rfl := Option.some.inj hr
      rfl

/-- Nor does growing the next entry downwards. -/
theorem Block.Commits.growDown (c : Cell Slot) (bytes : UInt64) :
    (Block.growDown c bytes).Commits := by
  intro s r hr hcode
  refine absurd ?_ hcode
  obtain ⟨t, -, hr⟩ := Option.bind_eq_some_iff.mp hr
  obtain ⟨x, -, hr⟩ := Option.bind_eq_some_iff.mp hr
  obtain rfl := Option.some.inj hr
  rfl

/-- `INSERT` fails before it writes. -/
theorem insertEntry_none {s : VirtualAddressMap} {c : Cell Slot} {b l : UInt64}
    {r : Option VirtualAddressMap} (hr : s.insertEntry c b l = some r) :
    (s.findFreeSlot = none ∧ r = none) ∨ ∃ s', r = some s' := by
  rw [insertEntry] at hr
  split at hr
  · rename_i hnone
    exact .inl ⟨hnone, (Option.some.inj hr).symm⟩
  · obtain ⟨t, -, hr⟩ := Option.bind_eq_some_iff.mp hr
    obtain ⟨t', -, hr⟩ := Option.bind_eq_some_iff.mp hr
    exact .inr ⟨_, (Option.some.inj hr).symm⟩

theorem Block.Commits.insert (c : Cell Slot) (base len : UInt64) (full : Option ℤ) :
    (Block.insert c base len full).Commits := by
  intro s r hr hcode
  obtain ⟨r', hins, hr⟩ := Option.bind_eq_some_iff.mp hr
  rcases insertEntry_none hins with ⟨-, rfl⟩ | ⟨s', rfl⟩
  · obtain rfl := Option.some.inj hr
    rfl
  · obtain rfl := Option.some.inj hr
    exact absurd rfl hcode

theorem Block.Allocating.commits {b : Block} (hb : b.Allocating) : b.Commits := by
  cases b with
  | ret code => exact .ret code
  | growUp c bytes top => exact .growUp c bytes top
  | growDown c bytes => exact .growDown c bytes
  | insert c base len full => exact .insert c base len full
  | cut c frame bytes full => exact hb.elim
  | unlink c code => exact hb.elim

section Plans

variable {s : VirtualAddressMap} {α : Type}

theorem AllocatingPlan.bind {o : Option α} {f : α → Option Plan} (h : ∀ a, AllocatingPlan (f a)) :
    AllocatingPlan (o.bind f) := by
  intro p hp
  obtain ⟨a, -, hfa⟩ := Option.bind_eq_some_iff.mp hp
  exact h a p hfa

theorem AllocatingPlan.ite {P : Prop} [Decidable P] {o o' : Option Plan} (h : AllocatingPlan o)
    (h' : AllocatingPlan o') : AllocatingPlan (if P then o else o') := by
  split
  · exact h
  · exact h'

theorem AllocatingPlan.block {b : Block} (hb : b.Allocating) (out : Option UInt64) :
    AllocatingPlan (some ⟨out, b⟩) := by
  intro p hp
  obtain rfl := Option.some.inj hp
  exact hb

theorem AllocatingPlan.ret (out : Option UInt64) (code : ℤ) :
    AllocatingPlan (some ⟨out, .ret code⟩) := .block (b := .ret code) trivial out

theorem AllocatingPlan.growUp (out : Option UInt64) (c : Cell Slot) (bytes top : UInt64) :
    AllocatingPlan (some ⟨out, .growUp c bytes top⟩) :=
  .block (b := .growUp c bytes top) trivial out

theorem AllocatingPlan.growDown (out : Option UInt64) (c : Cell Slot) (bytes : UInt64) :
    AllocatingPlan (some ⟨out, .growDown c bytes⟩) := .block (b := .growDown c bytes) trivial out

theorem AllocatingPlan.insert (out : Option UInt64) (c : Cell Slot) (base bytes : UInt64) :
    AllocatingPlan (some ⟨out, .insert c base bytes (some (-1))⟩) :=
  .block (b := .insert c base bytes (some (-1))) rfl out

/-- The end of most functions: the next entry grows down or a new one is made. -/
theorem AllocatingPlan.place {P : Prop} [Decidable P] (out : Option UInt64) (c : Cell Slot)
    (base bytes : UInt64) :
    AllocatingPlan (if P then some ⟨out, .growDown c bytes⟩
      else some ⟨out, .insert c base bytes (some (-1))⟩) :=
  .ite (.growDown out c bytes) (.insert out c base bytes)

variable (base allocCount : UInt64)

theorem allocating_allocAfter : AllocatingPlan (s.pageVirtualAllocAfterPlan base) :=
  .bind fun _ => .bind fun _ => .ite (.growUp _ _ _ _) (.place _ _ _ _)

theorem allocating_allocMultipleAfter :
    AllocatingPlan (s.pageVirtualAllocMultipleAfterPlan base allocCount) :=
  .ite (.ret _ _) (.bind fun _ => .bind fun _ =>
    .ite (.ite (.ret _ _) (.growUp _ _ _ _)) (.place _ _ _ _))

/-- The exits of the allocations. -/
theorem allocating_plan {c : Call} (hc : c.Allocates) : AllocatingPlan (s.plan c) := by
  -- a block is reached on the branches that allocate, and the others only return
  cases c with
  | alloc => exact .bind fun t => .ite (.ret _ _) (.growUp _ _ _ _)
  | allocAt frame =>
    exact .bind fun c => .bind fun t => .ite (.ret _ _) (.ite (.growUp _ _ _ _)
      (.place _ _ _ _))
  | allocAfter base => exact allocating_allocAfter base
  | allocBeyond base jumpCount =>
    refine .ite (allocating_allocAfter base) (.bind fun c => .bind fun t => .ite (.ret _ _) ?_)
    exact .ite (.growDown _ _ _) (.ite (.bind fun x => .growUp _ _ _ _)
      (.insert _ _ _ _))
  | allocBeyondEx base jumpCount =>
    exact .ite (allocating_allocAfter base) (.bind fun c => .bind fun t => .bind fun r =>
      .bind fun t' => .place _ _ _ _)
  | allocMultiple allocCount =>
    exact .ite (.ret _ _) (.bind fun t => .ite (.ret _ _) (.growUp _ _ _ _))
  | allocMultipleEx allocCount =>
    exact .ite (.ret _ _) (.bind fun t => .bind fun c => .growUp _ _ _ _)
  | allocMultipleAt frame allocCount =>
    exact .ite (.ret _ _) (.bind fun c => .bind fun t => .ite (.ret _ _)
      (.bind fun b => .ite (.ret _ _) (.ite (.growUp _ _ _ _) (.place _ _ _ _))))
  | allocMultipleAfter base allocCount => exact allocating_allocMultipleAfter base allocCount
  | allocMultipleAfterEx base allocCount =>
    exact .ite (.ret _ _) (.bind fun c => .bind fun t =>
      .ite (.bind fun c' => .bind fun t' => .growUp _ _ _ _) (.place _ _ _ _))
  | allocMultipleBeyond base allocCount jumpCount =>
    refine .ite (.ret _ _) (.ite (allocating_allocMultipleAfter base allocCount)
      (.bind fun c => .bind fun t => .ite (.ret _ _) ?_))
    exact .ite (.growDown _ _ _) (.ite (.bind fun x => .growUp _ _ _ _)
      (.insert _ _ _ _))
  | allocMultipleBeyondEx base allocCount jumpCount =>
    exact .ite (.ret _ _) (.ite (allocating_allocMultipleAfter base allocCount)
      (.bind fun c => .bind fun t => .bind fun r => .bind fun t' => .place _ _ _ _))
  | free frame => exact hc.elim
  | freeMultiple frame count => exact hc.elim

end Plans

/-- On any map, an allocation that does not return 0 leaves the list, the entries
and the slot bitmap as they are. -/
theorem failedAlloc_unchanged {s : VirtualAddressMap} {c : Call} (hc : c.Allocates) {o : Outcome}
    (ho : s.call c = some o) (hcode : o.code ≠ some 0) : o.map = s := by
  rw [call_eq_plan hc.ne_freeMultiple] at ho
  obtain ⟨p, hp, hrun⟩ := Option.bind_eq_some_iff.mp ho
  obtain ⟨r, hr, rfl⟩ := Option.map_eq_some_iff.mp hrun
  exact (allocating_plan hc p hp).commits s r hr hcode

/-- A map whose only entry points to itself. -/
def loopEntry : VirtualAddressMap where
  map := fun _ => ⟨some 0, 0x2000, 0x80000⟩
  first := some 0
  freeBitmap := fun _ => 0

/-- A page of its entry is refused. -/
theorem failedAlloc_unchanged_loop :
    ∃ o, loopEntry.call (.allocAt 0x80000) = some o ∧ o.code = some 1 ∧ o.map = loopEntry := by
  have hc : (Call.allocAt 0x80000).Allocates := trivial
  have hcall : loopEntry.call (.allocAt 0x80000) = some ⟨some 1, none, loopEntry⟩ := rfl
  exact ⟨_, hcall, rfl, failedAlloc_unchanged hc hcall (by decide)⟩

end VirtualAddressMap

end Betelgeuse
