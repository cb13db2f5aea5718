/-
The loops that relocate the tables (`init_virtual_mapping`).

Each loop is followed round by round.  The loop over a page directory only looks
for the highest address (`pdLoop_spec`); the one over a PDP also relocates the links
in it (`pdpLoop_spec`); the one over the PML4 does so and visits each PDP
(`pml4Loop_spec`).  A round reads the tables below the entry it has just relocated,
so the tables on the way have to be different ones (`Scannable`).

`Highest A h` says that `h` is the highest address of `A`.
-/
import Betelgeuse.RangeLoop
import Betelgeuse.UefiMem
import Betelgeuse.PageTableBits

open PageTree RangeLoop

namespace Betelgeuse

/-! ### Relocated entries -/

section Entries

variable (newMap oldMap : UInt64)

/-- The entry that a link becomes. -/
def relocatedEntry (w : UInt64) : UInt64 :=
  (w &&& ~~~addrMask) ||| oldAddrToNewMap newMap oldMap (w &&& addrMask)

/-- The place of a table after the move. -/
def moved (f : Frame) : Frame := entryFrame (oldAddrToNewMap newMap oldMap f.addr)

/-- What becomes of an entry `n` levels above the page tables. -/
def moveEntry (n : ℕ) (w : UInt64) : UInt64 :=
  match decode n w with
  | .table _ => relocatedEntry newMap oldMap w
  | .absent | .leaf => w

variable {newMap oldMap}

theorem relocatedEntry_and_addrMask (w : UInt64) : relocatedEntry newMap oldMap w &&& addrMask =
    oldAddrToNewMap newMap oldMap (w &&& addrMask) &&& addrMask := by
  have hzero : (~~~addrMask &&& addrMask) = 0 := by decide
  rw [relocatedEntry, and_or_right, UInt64.and_assoc, hzero, UInt64.and_zero, UInt64.zero_or]

/-- An entry that is relocated links the moved table. -/
theorem entryFrame_relocatedEntry (w : UInt64) :
    entryFrame (relocatedEntry newMap oldMap w) = moved newMap oldMap (entryFrame w) := by
  unfold moved entryFrame
  congr 1
  exact relocatedEntry_and_addrMask w

/-- The flags stay as they are if the new address is that of a frame. -/
theorem relocatedEntry_and_flags {w m : UInt64} (hm : ~~~addrMask &&& m = m)
    (hframe : (moved newMap oldMap (entryFrame w)).addr =
      oldAddrToNewMap newMap oldMap (entryFrame w).addr) :
    relocatedEntry newMap oldMap w &&& m = w &&& m := by
  have hzero : addrMask &&& m = 0 := by
    rw [← hm, ← UInt64.and_assoc, show addrMask &&& ~~~addrMask = 0 by decide, UInt64.zero_and]
  have haddr : oldAddrToNewMap newMap oldMap (w &&& addrMask) &&& m = 0 := by
    have hmasked := (moved newMap oldMap (entryFrame w)).masked
    rw [hframe] at hmasked
    show oldAddrToNewMap newMap oldMap (entryFrame w).addr &&& m = 0
    rw [← hmasked, UInt64.and_assoc, hzero, UInt64.and_zero]
  rw [relocatedEntry, and_or_right, haddr, UInt64.or_zero, UInt64.and_assoc, hm]

theorem decode_relocatedEntry {n : ℕ} {w : UInt64} {f : Frame} (h : decode n w = .table f)
    (hframe : (moved newMap oldMap f).addr = oldAddrToNewMap newMap oldMap f.addr) :
    decode n (relocatedEntry newMap oldMap w) = .table (moved newMap oldMap f) := by
  obtain ⟨hpresent, hn, hsize, rfl⟩ := decode_eq_table.mp h
  refine decode_eq_table.mpr ⟨?_, hn, ?_, entryFrame_relocatedEntry w⟩
  · rwa [relocatedEntry_and_flags (by decide) hframe]
  · rwa [relocatedEntry_and_flags (by decide) hframe]

theorem moveEntry_of_table {n : ℕ} {w : UInt64} {f : Frame} (h : decode n w = .table f) :
    moveEntry newMap oldMap n w = relocatedEntry newMap oldMap w := by
  rw [moveEntry, h]

theorem moveEntry_of_absent {n : ℕ} {w : UInt64} (h : decode n w = .absent) :
    moveEntry newMap oldMap n w = w := by
  rw [moveEntry, h]

theorem moveEntry_of_leaf {n : ℕ} {w : UInt64} (h : decode n w = .leaf) :
    moveEntry newMap oldMap n w = w := by
  rw [moveEntry, h]

end Entries

/-! ### The highest address -/

/-- `h` is the highest address of `A`, or 0 if there is none. -/
structure Highest (A : Set UInt64) (h : UInt64) : Prop where
  le : ∀ a ∈ A, a ≤ h
  mem : h = 0 ∨ h ∈ A

theorem Highest.congr {A B : Set UInt64} {h : UInt64} (hA : Highest A h)
    (hAB : ∀ a, a ∈ A ↔ a ∈ B) : Highest B h where
  le a ha := hA.le a ((hAB a).mpr ha)
  mem := hA.mem.imp_right (hAB h).mp

theorem Highest.empty : Highest ∅ 0 where
  le _ ha := ha.elim
  mem := .inl rfl

/-- The present words of a table. -/
def presentWords (mem : UInt64 → UInt64) (f : Frame) : Set UInt64 :=
  {a | ∃ i : Fin 512, a = f.addr + 8 * UInt64.ofNat i ∧ word mem f i &&& presentFlag ≠ 0}

theorem presentWords_congr {mem mem' : UInt64 → UInt64} {f : Frame}
    (h : ∀ i, word mem f i = word mem' f i) : presentWords mem f = presentWords mem' f := by
  unfold presentWords
  simp only [h]

/-- The address is not that of a word of the table. -/
def OffFrame (f : Frame) (a : UInt64) : Prop := ∀ i : Fin 512, a ≠ f.addr + 8 * UInt64.ofNat i

theorem OffFrame.word_of_ne {f g : Frame} (h : g ≠ f) (i : Fin 512) :
    OffFrame f (g.addr + 8 * UInt64.ofNat i) := fun _ heq => h (wordAddr_inj.mp heq).1

/-- Memories that agree off one table agree on the others. -/
theorem word_eq_of_off {mem mem' : UInt64 → UInt64} {f g : Frame}
    (h : ∀ a, OffFrame g a → mem' a = mem a) (hne : f ≠ g) (i : Fin 512) :
    word mem' f i = word mem f i :=
  h _ (OffFrame.word_of_ne hne i)

namespace Scan

variable {s : Scan} {newMap oldMap : UInt64} {A : Set UInt64}

@[simp] theorem visit_mem (addr : UInt64) : (s.visit addr).mem = s.mem := by
  unfold visit
  split <;> rfl

theorem visit_highest (hA : Highest A s.highestAddr) (addr : UInt64) :
    Highest {a | a ∈ A ∨ a = addr} (s.visit addr).highestAddr := by
  unfold visit
  split
  · rename_i hgt
    refine ⟨?_, .inr (.inr rfl)⟩
    rintro a (ha | rfl)
    · exact UInt64.le_of_lt (UInt64.lt_of_le_of_lt (hA.le a ha) hgt)
    · exact UInt64.le_refl _
  · rename_i hle
    refine ⟨?_, hA.mem.imp_right .inl⟩
    rintro a (ha | rfl)
    · exact hA.le a ha
    · exact UInt64.not_lt.mp hle

theorem relocate_mem (addr : UInt64) : (s.relocate newMap oldMap addr).mem =
    Function.update s.mem addr (relocatedEntry newMap oldMap (s.mem addr)) := by
  unfold relocate
  dsimp only
  rw [Function.update_self, Function.update_idem]
  rfl

/-! ### The loops -/

/-- The rounds in front of `m + 1`. -/
theorem exists_lt_succ {m : ℕ} (hm : m < 512) {p : Fin 512 → Prop} :
    (∃ i : Fin 512, i.val < m + 1 ∧ p i) ↔ (∃ i : Fin 512, i.val < m ∧ p i) ∨ p ⟨m, hm⟩ := by
  constructor
  · rintro ⟨i, hi, hp⟩
    rcases Nat.lt_succ_iff_lt_or_eq.mp hi with hlt | heq
    · exact .inl ⟨i, hlt, hp⟩
    · obtain rfl : i = ⟨m, hm⟩ := Fin.ext heq
      exact .inr hp
  · rintro (⟨i, hi, hp⟩ | hp)
    · exact ⟨i, by omega, hp⟩
    · exact ⟨⟨m, hm⟩, Nat.lt_succ_self m, hp⟩

theorem exists_lt_all {p : Fin 512 → Prop} : (∃ i : Fin 512, i.val < 512 ∧ p i) ↔ ∃ i, p i :=
  ⟨fun ⟨i, _, hp⟩ => ⟨i, hp⟩, fun ⟨i, hp⟩ => ⟨i, i.isLt, hp⟩⟩

theorem not_exists_lt_zero {p : Fin 512 → Prop} : ¬ ∃ i : Fin 512, i.val < 0 ∧ p i :=
  fun ⟨i, hi, _⟩ => absurd hi (Nat.not_lt_zero i.val)

/-- The loop over a page directory. -/
theorem pdLoop_spec (hA : Highest A s.highestAddr) (f : Frame) :
    (s.pdLoop f.addr).mem = s.mem ∧
      Highest {a | a ∈ A ∨ a ∈ presentWords s.mem f} (s.pdLoop f.addr).highestAddr := by
  let seen : ℕ → Set UInt64 := fun m => {a | a ∈ A ∨ ∃ i : Fin 512, i.val < m ∧
    (a = f.addr + 8 * UInt64.ofNat i ∧ word s.mem f i &&& presentFlag ≠ 0)}
  have hstart : s.mem = s.mem ∧ Highest (seen 0) s.highestAddr :=
    ⟨rfl, hA.congr fun a => ⟨.inl, fun h => h.resolve_right not_exists_lt_zero⟩⟩
  obtain ⟨hmem, hhighest⟩ : (s.pdLoop f.addr).mem = s.mem ∧
      Highest (seen 512) (s.pdLoop f.addr).highestAddr := by
    refine foldl_range_induction (fun m (t : Scan) => t.mem = s.mem ∧
      Highest (seen m) t.highestAddr) hstart ?_
    rintro m t hm ⟨hmem, ht⟩
    have hword : t.mem (f.addr + 8 * UInt64.ofNat m) = word s.mem f ⟨m, hm⟩ := by
      rw [hmem]
      rfl
    dsimp only
    rw [hword]
    split
    · rename_i hpresent
      refine ⟨(visit_mem _).trans hmem, (visit_highest ht _).congr fun a => ?_⟩
      show (a ∈ A ∨ _) ∨ _ ↔ a ∈ A ∨ _
      rw [exists_lt_succ hm, or_assoc]
      exact or_congr_right (or_congr_right ⟨fun h => ⟨h, hpresent⟩, fun h => h.1⟩)
    · rename_i habsent
      refine ⟨hmem, ht.congr fun a => ?_⟩
      show a ∈ A ∨ _ ↔ a ∈ A ∨ _
      rw [exists_lt_succ hm]
      exact or_congr_right ⟨.inl, fun h => h.resolve_right fun h => habsent h.2⟩
  exact ⟨hmem, hhighest.congr fun a => or_congr_right exists_lt_all⟩

/-- What the loop over the PDP `f` finds: its present words, and those of the page
directories that it links. -/
def pdpWords (newMap oldMap : UInt64) (mem : UInt64 → UInt64) (f : Frame) : Set UInt64 :=
  {a | a ∈ presentWords mem f ∨ ∃ (i : Fin 512) (g : Frame), decode 2 (word mem f i) = .table g ∧
    a ∈ presentWords mem (moved newMap oldMap g)}

/-- What a round of this loop finds at the entry `i`. -/
def pdpFound (newMap oldMap : UInt64) (mem : UInt64 → UInt64) (f : Frame) (i : Fin 512)
    (a : UInt64) : Prop :=
  (a = f.addr + 8 * UInt64.ofNat i ∧ word mem f i &&& presentFlag ≠ 0) ∨
    ∃ g, decode 2 (word mem f i) = .table g ∧ a ∈ presentWords mem (moved newMap oldMap g)

/-- The state `t` after `m` rounds over the PDP `f`, from the state `s`. -/
structure PdpRounds (newMap oldMap : UInt64) (A : Set UInt64) (f : Frame) (s : Scan) (m : ℕ)
    (t : Scan) : Prop where
  words : ∀ i : Fin 512, word t.mem f i =
    if i.val < m then moveEntry newMap oldMap 2 (word s.mem f i) else word s.mem f i
  off : ∀ a, OffFrame f a → t.mem a = s.mem a
  highest : Highest {a | a ∈ A ∨ ∃ i : Fin 512, i.val < m ∧ pdpFound newMap oldMap s.mem f i a}
    t.highestAddr

section PdpRound

variable {f : Frame} {m : ℕ} {t : Scan}

theorem PdpRounds.word_eq (h : PdpRounds newMap oldMap A f s m t) (hm : m < 512) :
    t.mem (f.addr + 8 * UInt64.ofNat m) = word s.mem f ⟨m, hm⟩ :=
  (h.words ⟨m, hm⟩).trans (if_neg (Nat.lt_irrefl m))

/-- A round that writes no word but that of its entry. -/
theorem PdpRounds.next (h : PdpRounds newMap oldMap A f s m t) (hm : m < 512) {t' : Scan}
    (hword : word t'.mem f ⟨m, hm⟩ = moveEntry newMap oldMap 2 (word s.mem f ⟨m, hm⟩))
    (hoff : ∀ a, a ≠ f.addr + 8 * UInt64.ofNat m → t'.mem a = t.mem a)
    (hhighest : Highest {a | (a ∈ A ∨ ∃ i : Fin 512, i.val < m ∧
      pdpFound newMap oldMap s.mem f i a) ∨ pdpFound newMap oldMap s.mem f ⟨m, hm⟩ a}
      t'.highestAddr) :
    PdpRounds newMap oldMap A f s (m + 1) t' where
  words i := by
    by_cases him : i = ⟨m, hm⟩
    · subst him
      rw [if_pos (Nat.lt_succ_self m), hword]
    · have hval : i.val ≠ m := fun heq => him (Fin.ext heq)
      have hne : f.addr + 8 * UInt64.ofNat i.val ≠ f.addr + 8 * UInt64.ofNat m := fun heq =>
        him (wordAddr_inj (i := i) (j := ⟨m, hm⟩).mp heq).2
      have hsame : word t'.mem f i = word t.mem f i := hoff (f.addr + 8 * UInt64.ofNat i.val) hne
      rw [hsame, h.words i]
      by_cases hlt : i.val < m
      · rw [if_pos hlt, if_pos (by omega)]
      · rw [if_neg hlt, if_neg (by omega)]
  off a ha := (hoff a (ha ⟨m, hm⟩)).trans (h.off a ha)
  highest := hhighest.congr fun a => by
    show (a ∈ A ∨ _) ∨ _ ↔ a ∈ A ∨ _
    rw [exists_lt_succ hm, or_assoc]

/-- The round at a link. -/
theorem PdpRounds.link (h : PdpRounds newMap oldMap A f s m t) (hm : m < 512) {g : Frame}
    (hg : decode 2 (word s.mem f ⟨m, hm⟩) = .table g) (hne : moved newMap oldMap g ≠ f) :
    let u := (t.visit (f.addr + 8 * UInt64.ofNat m)).relocate newMap oldMap
      (f.addr + 8 * UInt64.ofNat m)
    PdpRounds newMap oldMap A f s (m + 1)
      (u.pdLoop (u.mem (f.addr + 8 * UInt64.ofNat m) &&& addrMask)) := by
  intro u
  obtain ⟨hpresent, -, -, hframe⟩ := decode_eq_table.mp hg
  have hmem : u.mem = Function.update t.mem (f.addr + 8 * UInt64.ofNat m)
      (relocatedEntry newMap oldMap (word s.mem f ⟨m, hm⟩)) := by
    rw [relocate_mem, visit_mem, h.word_eq hm]
  have hnew : u.mem (f.addr + 8 * UInt64.ofNat m) =
      relocatedEntry newMap oldMap (word s.mem f ⟨m, hm⟩) := by
    rw [hmem, Function.update_self]
  have hrest : ∀ a, a ≠ f.addr + 8 * UInt64.ofNat m → u.mem a = t.mem a := by
    intro a ha
    rw [hmem, Function.update_of_ne ha]
  have haddr : u.mem (f.addr + 8 * UInt64.ofNat m) &&& addrMask = (moved newMap oldMap g).addr := by
    rw [hnew, ← hframe, ← entryFrame_relocatedEntry]
    rfl
  -- the loop over the page directory reads words that no round has written
  have hpd : presentWords u.mem (moved newMap oldMap g) =
      presentWords s.mem (moved newMap oldMap g) :=
    presentWords_congr fun i => by
      have hoff := OffFrame.word_of_ne hne i
      exact (hrest _ (hoff ⟨m, hm⟩)).trans (h.off _ hoff)
  have hvisit : Highest _ u.highestAddr := visit_highest h.highest (f.addr + 8 * UInt64.ofNat m)
  obtain ⟨hloop, hhighest⟩ := pdLoop_spec hvisit (moved newMap oldMap g)
  rw [hpd] at hhighest
  rw [haddr]
  refine h.next hm ?_ (fun a ha => ?_) (hhighest.congr fun a => ?_)
  · rw [hloop, moveEntry_of_table hg]
    exact hnew
  · rw [hloop, hrest a ha]
  · show ((a ∈ A ∨ _) ∨ _) ∨ _ ↔ (a ∈ A ∨ _) ∨ _
    rw [or_assoc]
    refine or_congr_right ?_
    constructor
    · rintro (h | h)
      · exact .inl ⟨h, hpresent⟩
      · exact .inr ⟨g, hg, h⟩
    · rintro (h | ⟨g', hg', h⟩)
      · exact .inl h.1
      · rw [hg] at hg'
        obtain rfl := Entry.table.inj hg'
        exact .inr h

theorem PdpRounds.step (h : PdpRounds newMap oldMap A f s m t) (hm : m < 512)
    (hne : ∀ i g, decode 2 (word s.mem f i) = .table g → moved newMap oldMap g ≠ f) :
    PdpRounds newMap oldMap A f s (m + 1) (pdpStep newMap oldMap f.addr t m) := by
  unfold pdpStep
  dsimp only
  rw [visit_mem, h.word_eq hm]
  -- a link, a large page, or nothing
  by_cases hpresent : word s.mem f ⟨m, hm⟩ &&& presentFlag ≠ 0
  · rw [if_pos hpresent]
    by_cases hsize : word s.mem f ⟨m, hm⟩ &&& pageSizeFlag = 0
    · rw [if_pos hsize]
      have hg : decode 2 (word s.mem f ⟨m, hm⟩) = .table (entryFrame (word s.mem f ⟨m, hm⟩)) :=
        decode_eq_table.mpr ⟨hpresent, by decide, hsize, rfl⟩
      exact h.link hm hg (hne _ _ hg)
    · rw [if_neg hsize]
      have hleaf : decode 2 (word s.mem f ⟨m, hm⟩) = .leaf := by
        rw [decode, if_neg hpresent, if_neg (by decide), if_neg hsize]
      refine h.next hm ?_ (fun a _ => by rw [visit_mem])
        ((visit_highest h.highest _).congr fun a => or_congr_right ⟨
          fun h => .inl ⟨h, hpresent⟩, ?_⟩)
      · rw [visit_mem, moveEntry_of_leaf hleaf]
        exact h.word_eq hm
      · rintro (h | ⟨g, hg, -⟩)
        · exact h.1
        · rw [hleaf] at hg
          cases hg
  · rw [if_neg hpresent]
    have habsent : decode 2 (word s.mem f ⟨m, hm⟩) = .absent :=
      decode_eq_absent (not_not.mp hpresent)
    refine h.next hm ?_ (fun a _ => rfl)
      (h.highest.congr fun a => ⟨.inl, fun h => h.resolve_right ?_⟩)
    · rw [moveEntry_of_absent habsent]
      exact h.word_eq hm
    · rintro (h | ⟨g, hg, -⟩)
      · exact hpresent h.2
      · rw [habsent] at hg
        cases hg

end PdpRound

/-- The loop over a PDP. -/
theorem pdpLoop_spec (hA : Highest A s.highestAddr) (f : Frame)
    (hne : ∀ i g, decode 2 (word s.mem f i) = .table g → moved newMap oldMap g ≠ f) :
    (∀ i, word (s.pdpLoop newMap oldMap f.addr).mem f i =
        moveEntry newMap oldMap 2 (word s.mem f i)) ∧
      (∀ a, OffFrame f a → (s.pdpLoop newMap oldMap f.addr).mem a = s.mem a) ∧
      Highest {a | a ∈ A ∨ a ∈ pdpWords newMap oldMap s.mem f}
        (s.pdpLoop newMap oldMap f.addr).highestAddr := by
  have hstart : PdpRounds newMap oldMap A f s 0 s := by
    refine ⟨fun i => ?_, fun a _ => rfl, hA.congr fun a => ⟨.inl, fun h => ?_⟩⟩
    · rw [if_neg (Nat.not_lt_zero _)]
    · exact h.resolve_right not_exists_lt_zero
  have hdone : PdpRounds newMap oldMap A f s 512 (s.pdpLoop newMap oldMap f.addr) :=
    foldl_range_induction (PdpRounds newMap oldMap A f s) hstart fun m t hm h => h.step hm hne
  refine ⟨fun i => (hdone.words i).trans (if_pos i.isLt), hdone.off,
    hdone.highest.congr fun a => or_congr_right ?_⟩
  rw [exists_lt_all]
  exact exists_or

/-- The tables below the PML4 `r` are different ones at their new places, and every
entry in use is a link: the page-size bit is reserved in the PML4. -/
structure Scannable (newMap oldMap : UInt64) (mem : UInt64 → UInt64) (r : Frame) : Prop where
  links : ∀ i, word mem r i &&& presentFlag ≠ 0 → word mem r i &&& pageSizeFlag = 0
  pdp_ne : ∀ i p, decode 3 (word mem r i) = .table p → moved newMap oldMap p ≠ r
  pdp_inj : ∀ i p i' p', decode 3 (word mem r i) = .table p → decode 3 (word mem r i') = .table p' →
    moved newMap oldMap p = moved newMap oldMap p' → i = i'
  pd_ne : ∀ i p j d, decode 3 (word mem r i) = .table p →
    decode 2 (word mem (moved newMap oldMap p) j) = .table d → moved newMap oldMap d ≠ r
  pd_ne_pdp : ∀ i p j d, decode 3 (word mem r i) = .table p →
    decode 2 (word mem (moved newMap oldMap p) j) = .table d →
    ∀ i' p', decode 3 (word mem r i') = .table p' → moved newMap oldMap d ≠ moved newMap oldMap p'

/-- What a round of the loop over the PML4 finds at the entry `i`. -/
def pml4Found (newMap oldMap : UInt64) (mem : UInt64 → UInt64) (r : Frame) (i : Fin 512)
    (a : UInt64) : Prop :=
  (a = r.addr + 8 * UInt64.ofNat i ∧ word mem r i &&& presentFlag ≠ 0) ∨
    ∃ p, decode 3 (word mem r i) = .table p ∧
      a ∈ pdpWords newMap oldMap mem (moved newMap oldMap p)

/-- The state `t` after `m` rounds over the PML4 `r`, from the state `s`. -/
structure Pml4Rounds (newMap oldMap : UInt64) (A : Set UInt64) (r : Frame) (s : Scan) (m : ℕ)
    (t : Scan) : Prop where
  words : ∀ i : Fin 512, word t.mem r i =
    if i.val < m then moveEntry newMap oldMap 3 (word s.mem r i) else word s.mem r i
  pdps : ∀ (i : Fin 512) (p : Frame), decode 3 (word s.mem r i) = .table p → ∀ j,
    word t.mem (moved newMap oldMap p) j =
      if i.val < m then moveEntry newMap oldMap 2 (word s.mem (moved newMap oldMap p) j)
      else word s.mem (moved newMap oldMap p) j
  off : ∀ a, OffFrame r a → (∀ i p, decode 3 (word s.mem r i) = .table p →
    OffFrame (moved newMap oldMap p) a) → t.mem a = s.mem a
  highest : Highest {a | a ∈ A ∨ ∃ i : Fin 512, i.val < m ∧ pml4Found newMap oldMap s.mem r i a}
    t.highestAddr

section Pml4Round

variable {r : Frame} {m : ℕ} {t : Scan}

/-- The value behind the rounds up to `m`. -/
theorem ite_lt_succ {V : Type*} {i : Fin 512} (hm : m < 512) (hi : i ≠ ⟨m, hm⟩) (v w : V) :
    (if i.val < m + 1 then v else w) = if i.val < m then v else w := by
  have hval : i.val ≠ m := fun heq => hi (Fin.ext heq)
  by_cases hlt : i.val < m
  · rw [if_pos hlt, if_pos (by omega)]
  · rw [if_neg hlt, if_neg (by omega)]

theorem Pml4Rounds.word_eq (h : Pml4Rounds newMap oldMap A r s m t) (hm : m < 512) :
    t.mem (r.addr + 8 * UInt64.ofNat m) = word s.mem r ⟨m, hm⟩ :=
  (h.words ⟨m, hm⟩).trans (if_neg (Nat.lt_irrefl m))

/-- Off the PML4 and the PDPs nothing is written. -/
theorem Pml4Rounds.word_off (h : Pml4Rounds newMap oldMap A r s m t) {f : Frame} (hr : f ≠ r)
    (hp : ∀ i p, decode 3 (word s.mem r i) = .table p → f ≠ moved newMap oldMap p) (k : Fin 512) :
    word t.mem f k = word s.mem f k :=
  h.off _ (OffFrame.word_of_ne hr k) fun i p hip => OffFrame.word_of_ne (hp i p hip) k

/-- The round at an absent entry. -/
theorem Pml4Rounds.skip (h : Pml4Rounds newMap oldMap A r s m t) (hm : m < 512)
    (habsent : decode 3 (word s.mem r ⟨m, hm⟩) = .absent)
    (hpresent : ¬ word s.mem r ⟨m, hm⟩ &&& presentFlag ≠ 0) :
    Pml4Rounds newMap oldMap A r s (m + 1) t where
  words i := by
    by_cases him : i = ⟨m, hm⟩
    · subst him
      rw [if_pos (Nat.lt_succ_self m), moveEntry_of_absent habsent]
      exact h.word_eq hm
    · rw [ite_lt_succ hm him]
      exact h.words i
  pdps i p hp j := by
    have him : i ≠ ⟨m, hm⟩ := by
      rintro rfl
      rw [habsent] at hp
      cases hp
    rw [ite_lt_succ hm him]
    exact h.pdps i p hp j
  off := h.off
  highest := h.highest.congr fun a => by
    show a ∈ A ∨ _ ↔ a ∈ A ∨ _
    rw [exists_lt_succ hm]
    refine or_congr_right ⟨.inl, fun h => h.resolve_right ?_⟩
    rintro (h | ⟨p, hp, -⟩)
    · exact hpresent h.2
    · rw [habsent] at hp
      cases hp

/-- A round that relocates its entry and the PDP below it. -/
theorem Pml4Rounds.next (h : Pml4Rounds newMap oldMap A r s m t)
    (hs : Scannable newMap oldMap s.mem r) (hm : m < 512) {p : Frame}
    (hp : decode 3 (word s.mem r ⟨m, hm⟩) = .table p) {t' : Scan}
    (hword : word t'.mem r ⟨m, hm⟩ = relocatedEntry newMap oldMap (word s.mem r ⟨m, hm⟩))
    (hpdp : ∀ j, word t'.mem (moved newMap oldMap p) j =
      moveEntry newMap oldMap 2 (word s.mem (moved newMap oldMap p) j))
    (hoff : ∀ a, OffFrame (moved newMap oldMap p) a → a ≠ r.addr + 8 * UInt64.ofNat m →
      t'.mem a = t.mem a)
    (hhighest : Highest {a | (a ∈ A ∨ ∃ i : Fin 512, i.val < m ∧
      pml4Found newMap oldMap s.mem r i a) ∨ pml4Found newMap oldMap s.mem r ⟨m, hm⟩ a}
      t'.highestAddr) :
    Pml4Rounds newMap oldMap A r s (m + 1) t' where
  -- entry `m` has been moved in this round, the ones before it in earlier rounds
  words i := by
    by_cases him : i = ⟨m, hm⟩
    · subst him
      rw [if_pos (Nat.lt_succ_self m), moveEntry_of_table hp, hword]
    · have hne : r.addr + 8 * UInt64.ofNat i.val ≠ r.addr + 8 * UInt64.ofNat m := fun heq =>
        him (wordAddr_inj (i := i) (j := ⟨m, hm⟩).mp heq).2
      have hsame : word t'.mem r i = word t.mem r i :=
        hoff (r.addr + 8 * UInt64.ofNat i.val) (OffFrame.word_of_ne (hs.pdp_ne _ p hp).symm i) hne
      rw [ite_lt_succ hm him, hsame, h.words i]
  pdps i p' hp' j := by
    by_cases him : i = ⟨m, hm⟩
    · subst him
      rw [hp] at hp'
      obtain rfl := Entry.table.inj hp'
      rw [if_pos (Nat.lt_succ_self m), hpdp]
    · have hne : moved newMap oldMap p' ≠ moved newMap oldMap p := fun heq =>
        him (hs.pdp_inj i p' _ p hp' hp heq)
      have hsame : word t'.mem (moved newMap oldMap p') j = word t.mem (moved newMap oldMap p') j :=
        hoff ((moved newMap oldMap p').addr + 8 * UInt64.ofNat j.val) (OffFrame.word_of_ne hne j)
          (OffFrame.word_of_ne (hs.pdp_ne i p' hp') j ⟨m, hm⟩)
      rw [ite_lt_succ hm him, hsame, h.pdps i p' hp' j]
  off a har hap := (hoff a (hap _ p hp) (har ⟨m, hm⟩)).trans (h.off a har hap)
  highest := hhighest.congr fun a => by
    show (a ∈ A ∨ _) ∨ _ ↔ a ∈ A ∨ _
    rw [exists_lt_succ hm, or_assoc]

/-- The round at a link, behind its relocation. -/
theorem Pml4Rounds.link (h : Pml4Rounds newMap oldMap A r s m t)
    (hs : Scannable newMap oldMap s.mem r) (hm : m < 512) {p : Frame}
    (hp : decode 3 (word s.mem r ⟨m, hm⟩) = .table p) {u : Scan}
    (hmem : u.mem = Function.update t.mem (r.addr + 8 * UInt64.ofNat m)
      (relocatedEntry newMap oldMap (word s.mem r ⟨m, hm⟩)))
    (hu : u.highestAddr = (t.visit (r.addr + 8 * UInt64.ofNat m)).highestAddr) :
    Pml4Rounds newMap oldMap A r s (m + 1)
      (u.pdpLoop newMap oldMap (moved newMap oldMap p).addr) := by
  obtain ⟨hpresent, -, -, -⟩ := decode_eq_table.mp hp
  have hnew : u.mem (r.addr + 8 * UInt64.ofNat m) =
      relocatedEntry newMap oldMap (word s.mem r ⟨m, hm⟩) := by
    rw [hmem, Function.update_self]
  have hrest : ∀ a, a ≠ r.addr + 8 * UInt64.ofNat m → u.mem a = t.mem a := by
    intro a ha
    rw [hmem, Function.update_of_ne ha]
  have hrestFrame : ∀ f, f ≠ r → ∀ j, word u.mem f j = word t.mem f j := fun f hf j =>
    hrest _ (OffFrame.word_of_ne hf j ⟨m, hm⟩)
  -- the tables below the entry are as in the beginning
  have hpdp : ∀ j, word u.mem (moved newMap oldMap p) j = word s.mem (moved newMap oldMap p) j :=
    fun j => (hrestFrame _ (hs.pdp_ne _ p hp) j).trans
      ((h.pdps _ p hp j).trans (if_neg (Nat.lt_irrefl m)))
  have hpd : ∀ i d, decode 2 (word s.mem (moved newMap oldMap p) i) = .table d → ∀ j,
      word u.mem (moved newMap oldMap d) j = word s.mem (moved newMap oldMap d) j := by
    intro i d hd j
    have hdr := hs.pd_ne _ p i d hp hd
    refine (hrestFrame _ hdr j).trans (h.off _ (OffFrame.word_of_ne hdr j) fun i' p' hp' => ?_)
    exact OffFrame.word_of_ne (hs.pd_ne_pdp _ p i d hp hd i' p' hp') j
  have hwords : pdpWords newMap oldMap u.mem (moved newMap oldMap p) =
      pdpWords newMap oldMap s.mem (moved newMap oldMap p) := by
    unfold pdpWords
    rw [presentWords_congr hpdp]
    ext a
    refine or_congr_right (exists_congr fun i => exists_congr fun d => ?_)
    rw [hpdp i]
    exact and_congr_right fun hd => by rw [presentWords_congr (hpd i d hd)]
  have hvisit := visit_highest h.highest (r.addr + 8 * UInt64.ofNat m)
  rw [← hu] at hvisit
  obtain ⟨hin, hoff, hhighest⟩ := pdpLoop_spec hvisit (moved newMap oldMap p) fun i d hd => by
      rw [hpdp i] at hd
      exact hs.pd_ne_pdp _ p i d hp hd _ p hp
  rw [hwords] at hhighest
  have hword := (word_eq_of_off hoff (hs.pdp_ne _ p hp).symm ⟨m, hm⟩).trans hnew
  refine h.next hs hm hp hword (fun j => ?_)
    (fun a ha hne => (hoff a ha).trans (hrest a hne)) (hhighest.congr fun a => ?_)
  · rw [hin, hpdp]
  · show ((a ∈ A ∨ _) ∨ _) ∨ _ ↔ (a ∈ A ∨ _) ∨ _
    rw [or_assoc]
    refine or_congr_right ?_
    constructor
    · rintro (h | h)
      · exact .inl ⟨h, hpresent⟩
      · exact .inr ⟨p, hp, h⟩
    · rintro (h | ⟨p', hp', h⟩)
      · exact .inl h.1
      · rw [hp] at hp'
        obtain rfl := Entry.table.inj hp'
        exact .inr h

theorem Pml4Rounds.step (h : Pml4Rounds newMap oldMap A r s m t)
    (hs : Scannable newMap oldMap s.mem r) (hm : m < 512) :
    Pml4Rounds newMap oldMap A r s (m + 1) (pml4Step newMap oldMap r.addr t m) := by
  unfold pml4Step
  dsimp only
  rw [h.word_eq hm]
  by_cases hpresent : word s.mem r ⟨m, hm⟩ &&& presentFlag ≠ 0
  · rw [if_pos hpresent]
    have hp : decode 3 (word s.mem r ⟨m, hm⟩) = .table (entryFrame (word s.mem r ⟨m, hm⟩)) :=
      decode_eq_table.mpr ⟨hpresent, by decide, hs.links _ hpresent, rfl⟩
    have hmem : ((t.visit (r.addr + 8 * UInt64.ofNat m)).relocate newMap oldMap
        (r.addr + 8 * UInt64.ofNat m)).mem = Function.update t.mem (r.addr + 8 * UInt64.ofNat m)
          (relocatedEntry newMap oldMap (word s.mem r ⟨m, hm⟩)) := by
      rw [relocate_mem, visit_mem, h.word_eq hm]
    have haddr : relocatedEntry newMap oldMap (word s.mem r ⟨m, hm⟩) &&& addrMask =
        (moved newMap oldMap (entryFrame (word s.mem r ⟨m, hm⟩))).addr :=
      congrArg Frame.addr (entryFrame_relocatedEntry _)
    have hnext := h.link hs hm hp hmem rfl
    rwa [hmem, Function.update_self, haddr]
  · rw [if_neg hpresent]
    exact h.skip hm (decode_eq_absent (not_not.mp hpresent)) hpresent

end Pml4Round

/-- The loop over the PML4. -/
theorem pml4Loop_spec (hA : Highest A s.highestAddr) {r : Frame}
    (hs : Scannable newMap oldMap s.mem r) :
    Pml4Rounds newMap oldMap A r s 512 (s.pml4Loop newMap oldMap r.addr) := by
  have hstart : Pml4Rounds newMap oldMap A r s 0 s := by
    refine ⟨fun i => ?_, fun i p _ j => ?_, fun a _ _ => rfl, hA.congr fun a =>
      ⟨.inl, fun h => ?_⟩⟩
    · rw [if_neg (Nat.not_lt_zero _)]
    · rw [if_neg (Nat.not_lt_zero _)]
    · exact h.resolve_right not_exists_lt_zero
  exact foldl_range_induction (Pml4Rounds newMap oldMap A r s) hstart fun m t hm h => h.step hs hm

end Scan

end Betelgeuse
