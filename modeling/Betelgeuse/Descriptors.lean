/-
Descriptors (`kernel/arch/x86_64/gdt.c`, `set_idt_entry` of `interrupts.c`).

A table is the bytes from its start on, and a field of an entry is a little-endian number
at its offset in the C structure.  The long entry of a system segment lies over two slots
of the GDT.  What the processor makes of a descriptor is stated for its quadwords, with
the bits of the manual (`segmentDescriptor`, `systemDescriptor`, `gateDescriptor`).
-/
import Betelgeuse.LittleEndian
import Betelgeuse.WordArith

open LittleEndian WordArith

namespace Betelgeuse

/-- A table, byte by byte. -/
abbrev Table := ℕ → UInt8

/-! ### The encoders -/

/-- `gdt_set_entry`. -/
def gdtSetEntry (gdt : Table) (idx base limit : UInt32) (access gran : UInt8) : Table :=
  let entry := 8 * idx.toNat
  let gdt := store gdt (entry + 2) 2 (base &&& 0xFFFF).toNat
  let gdt := store gdt (entry + 4) 1 ((base >>> 16) &&& 0xFF).toNat
  let gdt := store gdt (entry + 7) 1 ((base >>> 24) &&& 0xFF).toNat
  let gdt := store gdt entry 2 (limit &&& 0xFFFF).toNat
  let gdt := store gdt (entry + 6) 1 ((limit >>> 16) &&& 0x0F).toNat
  let gdt := store gdt (entry + 6) 1 (load gdt (entry + 6) 1 ||| (gran &&& 0xF0).toNat)
  store gdt (entry + 5) 1 access.toNat

/-- `gdt_set_entry_long`. -/
def gdtSetEntryLong (gdt : Table) (idx : UInt32) (base : UInt64) (limit : UInt32)
    (access gran : UInt8) : Table :=
  let entry := 8 * idx.toNat
  let gdt := store gdt (entry + 12) 4 0
  let gdt := store gdt (entry + 2) 2 (base &&& 0xFFFF).toNat
  let gdt := store gdt (entry + 4) 1 ((base >>> 16) &&& 0xFF).toNat
  let gdt := store gdt (entry + 7) 1 ((base >>> 24) &&& 0xFF).toNat
  let gdt := store gdt (entry + 8) 4 (base >>> 32).toNat
  let gdt := store gdt entry 2 (limit &&& 0xFFFF).toNat
  let gdt := store gdt (entry + 6) 1 ((limit >>> 16) &&& 0x0F).toNat
  let gdt := store gdt (entry + 6) 1 (load gdt (entry + 6) 1 ||| (gran &&& 0xF0).toNat)
  store gdt (entry + 5) 1 access.toNat

/-- `set_idt_entry`. -/
def setIdtEntry (idt : Table) (idx : UInt8) (fn : UInt64) (attributes : UInt16) (ist : UInt8) :
    Table :=
  let entry := 16 * idx.toNat
  let idt := store idt entry 2 (fn &&& 0x0000ffff).toNat
  let idt := store idt (entry + 6) 2 ((fn >>> 16) &&& 0x0000ffff).toNat
  let idt := store idt (entry + 8) 4 ((fn >>> 32) &&& 0xffffffff).toNat
  let idt := store idt (entry + 2) 2 0x08
  let idt := store idt (entry + 5) 1 attributes.toNat
  store idt (entry + 4) 1 (ist &&& 0x07).toNat

/-! ### What the processor reads -/

/-- The quadword at a slot of eight bytes. -/
def quadword (t : Table) (slot : ℕ) : ℕ := load t (8 * slot) 8

/-- `width` bits from bit `lo` on. -/
def bits (q lo width : ℕ) : ℕ := q / 2 ^ lo % 2 ^ width

/-- A segment or system descriptor. -/
structure SegmentDescriptor where
  base : ℕ
  limit : ℕ
  access : ℕ
  flags : ℕ
  deriving DecidableEq

/-- A code or data segment: one quadword. -/
def segmentDescriptor (q : ℕ) : SegmentDescriptor where
  base := bits q 16 24 + 2 ^ 24 * bits q 56 8
  limit := bits q 0 16 + 2 ^ 16 * bits q 48 4
  access := bits q 40 8
  flags := bits q 52 4

/-- A system segment: the second quadword has the upper half of the base. -/
def systemDescriptor (low high : ℕ) : SegmentDescriptor :=
  { segmentDescriptor low with
    base := (segmentDescriptor low).base + 2 ^ 32 * bits high 0 32 }

/-- An interrupt gate. -/
structure GateDescriptor where
  offset : ℕ
  selector : ℕ
  ist : ℕ
  attributes : ℕ
  deriving DecidableEq

/-- A gate: two quadwords. -/
def gateDescriptor (low high : ℕ) : GateDescriptor where
  offset := bits low 0 16 + 2 ^ 16 * bits low 48 16 + 2 ^ 32 * bits high 0 32
  selector := bits low 16 16
  ist := bits low 32 3
  attributes := bits low 40 8

/-! ### Fields -/

/-- The fields of a short entry, and of the first half of a long one. -/
structure SegmentFields (t : Table) (entry base limit access gran : ℕ) : Prop where
  limitLow : load t entry 2 = limit % 2 ^ 16
  baseLow : load t (entry + 2) 2 = base % 2 ^ 16
  baseMid : load t (entry + 4) 1 = base / 2 ^ 16 % 2 ^ 8
  access : load t (entry + 5) 1 = access
  granularity : load t (entry + 6) 1 = limit / 2 ^ 16 % 2 ^ 4 + 2 ^ 4 * (gran / 2 ^ 4)
  baseHigh : load t (entry + 7) 1 = base / 2 ^ 24 % 2 ^ 8

/-- The fields of a gate, without the word that is not written. -/
structure GateFields (t : Table) (entry offset selector attributes ist : ℕ) : Prop where
  offsetLow : load t entry 2 = offset % 2 ^ 16
  selector : load t (entry + 2) 2 = selector
  ist : load t (entry + 4) 1 = ist % 2 ^ 3
  attributes : load t (entry + 5) 1 = attributes % 2 ^ 8
  offsetMid : load t (entry + 6) 2 = offset / 2 ^ 16 % 2 ^ 16
  offsetHigh : load t (entry + 8) 4 = offset / 2 ^ 32 % 2 ^ 32

section Fields

variable {t : Table} {entry base limit access gran : ℕ}

/-- The fields of a quadword of a segment descriptor. -/
theorem load_segment (t : Table) (entry : ℕ) :
    load t entry 8 = load t entry 2 + 2 ^ 16 * load t (entry + 2) 2 +
      2 ^ 32 * load t (entry + 4) 1 + 2 ^ 40 * load t (entry + 5) 1 +
      2 ^ 48 * load t (entry + 6) 1 + 2 ^ 56 * load t (entry + 7) 1 := by
  have h₀ := load_add t entry 2 6
  have h₂ := load_add t (entry + 2) 2 4
  have h₄ := load_add t (entry + 4) 1 3
  have h₅ := load_add t (entry + 5) 1 2
  have h₆ := load_add t (entry + 6) 1 1
  simp only [Nat.add_assoc, Nat.reduceAdd, Nat.reducePow] at h₀ h₂ h₄ h₅ h₆ ⊢
  omega

/-- The fields of the first quadword of a gate. -/
theorem load_gate (t : Table) (entry : ℕ) :
    load t entry 8 = load t entry 2 + 2 ^ 16 * load t (entry + 2) 2 +
      2 ^ 32 * load t (entry + 4) 1 + 2 ^ 40 * load t (entry + 5) 1 +
      2 ^ 48 * load t (entry + 6) 2 := by
  have h₀ := load_add t entry 2 6
  have h₂ := load_add t (entry + 2) 2 4
  have h₄ := load_add t (entry + 4) 1 3
  have h₅ := load_add t (entry + 5) 1 2
  simp only [Nat.add_assoc, Nat.reduceAdd, Nat.reducePow] at h₀ h₂ h₄ h₅ ⊢
  omega

/-- The bits of a quadword of six fields. -/
theorem segmentDescriptor_of_fields {f₀ f₂ f₄ f₅ f₆ f₇ : ℕ} (h₀ : f₀ < 2 ^ 16) (h₂ : f₂ < 2 ^ 16)
    (h₄ : f₄ < 2 ^ 8) (h₅ : f₅ < 2 ^ 8) (h₆ : f₆ < 2 ^ 8) (h₇ : f₇ < 2 ^ 8) :
    segmentDescriptor
      (f₀ + 2 ^ 16 * f₂ + 2 ^ 32 * f₄ + 2 ^ 40 * f₅ + 2 ^ 48 * f₆ + 2 ^ 56 * f₇) =
      ⟨f₂ + 2 ^ 16 * f₄ + 2 ^ 24 * f₇, f₀ + 2 ^ 16 * (f₆ % 2 ^ 4), f₅, f₆ / 2 ^ 4⟩ := by
  simp only [segmentDescriptor, bits, SegmentDescriptor.mk.injEq]
  refine ⟨?_, ?_, ?_, ?_⟩
  all_goals omega

/-- The bits of a gate. -/
theorem gateDescriptor_of_fields {f₀ f₂ f₄ f₅ f₆ high : ℕ} (h₀ : f₀ < 2 ^ 16) (h₂ : f₂ < 2 ^ 16)
    (h₄ : f₄ < 2 ^ 8) (h₅ : f₅ < 2 ^ 8) (h₆ : f₆ < 2 ^ 16) :
    gateDescriptor (f₀ + 2 ^ 16 * f₂ + 2 ^ 32 * f₄ + 2 ^ 40 * f₅ + 2 ^ 48 * f₆) high =
      ⟨f₀ + 2 ^ 16 * f₆ + 2 ^ 32 * (high % 2 ^ 32), f₂, f₄ % 2 ^ 3, f₅⟩ := by
  simp only [gateDescriptor, bits, GateDescriptor.mk.injEq]
  refine ⟨?_, ?_, ?_, ?_⟩
  all_goals omega

theorem SegmentFields.descriptor (h : SegmentFields t entry base limit access gran)
    (haccess : access < 2 ^ 8) (hgran : gran < 2 ^ 8) :
    segmentDescriptor (load t entry 8) =
      ⟨base % 2 ^ 32, limit % 2 ^ 20, access, gran / 2 ^ 4⟩ := by
  rw [load_segment, h.limitLow, h.baseLow, h.baseMid, h.access, h.granularity, h.baseHigh,
    segmentDescriptor_of_fields (Nat.mod_lt _ (by decide)) (Nat.mod_lt _ (by decide))
      (Nat.mod_lt _ (by decide)) haccess (by omega) (Nat.mod_lt _ (by decide)),
    SegmentDescriptor.mk.injEq]
  refine ⟨?_, ?_, rfl, ?_⟩
  all_goals omega

theorem GateFields.descriptor {offset selector attributes ist : ℕ}
    (h : GateFields t entry offset selector attributes ist) (hoffset : offset < 2 ^ 64)
    (hselector : selector < 2 ^ 16) :
    gateDescriptor (load t entry 8) (load t (entry + 8) 8) =
      ⟨offset, selector, ist % 2 ^ 3, attributes % 2 ^ 8⟩ := by
  have hhigh : load t (entry + 8) 8 % 2 ^ 32 = offset / 2 ^ 32 % 2 ^ 32 := by
    have hsplit : load t (entry + 8) 8 = _ := load_add t (entry + 8) 4 4
    rw [h.offsetHigh] at hsplit
    omega
  rw [load_gate, h.offsetLow, h.selector, h.ist, h.attributes, h.offsetMid,
    gateDescriptor_of_fields (Nat.mod_lt _ (by decide)) hselector (by omega)
      (Nat.mod_lt _ (by decide)) (Nat.mod_lt _ (by decide)), hhigh, GateDescriptor.mk.injEq]
  refine ⟨?_, rfl, ?_, rfl⟩
  all_goals omega

end Fields

/-! ### Masks and shifts -/

/-- The upper half of a byte. -/
theorem toNat_and_0xF0 (x : UInt8) : (x &&& 0xF0).toNat = 2 ^ 4 * (x.toNat / 2 ^ 4) := by
  have hdiv : x.toNat / 2 ^ 4 < 2 ^ 4 := by
    have hx := x.toNat_lt
    omega
  have hmask : (0xF0 : UInt8).toNat = (2 ^ 4 - 1) <<< 4 := rfl
  rw [UInt8.toNat_and, hmask, and_shifted_mask, Nat.mod_eq_of_lt hdiv, Nat.mul_comm]

/-- The byte of the upper bits of the limit and the flags. -/
theorem granularity_eq (limit : UInt32) (gran : UInt8) :
    ((limit >>> 16) &&& 0x0F).toNat % 256 ||| (gran &&& 0xF0).toNat =
      limit.toNat / 2 ^ 16 % 2 ^ 4 + 2 ^ 4 * (gran.toNat / 2 ^ 4) := by
  have hlow : ((limit >>> 16) &&& 0x0F).toNat % 256 = limit.toNat / 2 ^ 16 % 2 ^ 4 := by
    rw [toNat_and_mask32 (w := 4) rfl, toNat_shiftRight32 (n := 16) rfl]
    omega
  rw [hlow, toNat_and_0xF0, Nat.or_comm,
    ← Nat.two_pow_add_eq_or_of_lt (Nat.mod_lt _ (by decide)), Nat.add_comm]

/-! ### The entries of the GDT -/

section Gdt

variable (gdt : Table) (idx limit : UInt32) (access gran : UInt8)

theorem gdtSetEntry_fields (base : UInt32) :
    SegmentFields (gdtSetEntry gdt idx base limit access gran) (8 * idx.toNat) base.toNat
      limit.toNat access.toNat gran.toNat := by
  have haccess := access.toNat_lt
  have hgran := gran.toNat_lt
  constructor
  all_goals simp (disch := omega) only [gdtSetEntry, load_store, load_store_of_disjoint,
    Nat.pow_one, granularity_eq]
  · rw [toNat_and_mask32 (w := 16) rfl]
    omega
  · rw [toNat_and_mask32 (w := 16) rfl]
    omega
  · rw [toNat_and_mask32 (w := 8) rfl, toNat_shiftRight32 (n := 16) rfl]
    omega
  · omega
  · omega
  · rw [toNat_and_mask32 (w := 8) rfl, toNat_shiftRight32 (n := 24) rfl]
    omega

theorem gdtSetEntryLong_fields (base : UInt64) :
    SegmentFields (gdtSetEntryLong gdt idx base limit access gran) (8 * idx.toNat) base.toNat
      limit.toNat access.toNat gran.toNat := by
  have haccess := access.toNat_lt
  have hgran := gran.toNat_lt
  constructor
  all_goals simp (disch := omega) only [gdtSetEntryLong, load_store, load_store_of_disjoint,
    Nat.pow_one, granularity_eq]
  · rw [toNat_and_mask32 (w := 16) rfl]
    omega
  · rw [toNat_and_mask (w := 16) rfl]
    omega
  · rw [toNat_and_mask (w := 8) rfl, toNat_shiftRight (n := 16) rfl]
    omega
  · omega
  · omega
  · rw [toNat_and_mask (w := 8) rfl, toNat_shiftRight (n := 24) rfl]
    omega

/-- The upper half of the base, and the word that must be zero. -/
theorem gdtSetEntryLong_high (base : UInt64) :
    load (gdtSetEntryLong gdt idx base limit access gran) (8 * idx.toNat + 8) 8 =
      base.toNat / 2 ^ 32 := by
  have hbase := base.toNat_lt
  have hfields := load_add (gdtSetEntryLong gdt idx base limit access gran) (8 * idx.toNat + 8) 4 4
  rw [hfields, Nat.add_assoc]
  simp (disch := omega) only [gdtSetEntryLong, load_store, load_store_of_disjoint]
  rw [toNat_shiftRight (n := 32) rfl]
  omega

/-- `gdt_set_entry` writes a descriptor of what it was given, in its slot. -/
theorem gdtSetEntry_decodes (base : UInt32) :
    segmentDescriptor (quadword (gdtSetEntry gdt idx base limit access gran) idx.toNat) =
        ⟨base.toNat, limit.toNat % 2 ^ 20, access.toNat, gran.toNat / 2 ^ 4⟩ ∧
      ∀ a, a / 8 ≠ idx.toNat → gdtSetEntry gdt idx base limit access gran a = gdt a := by
  constructor
  · have hdecode := (gdtSetEntry_fields gdt idx limit access gran base).descriptor
      access.toNat_lt gran.toNat_lt
    rwa [Nat.mod_eq_of_lt base.toNat_lt] at hdecode
  · intro a ha
    simp (disch := omega) only [gdtSetEntry, store_of_notMem]

/-- The code segment that `load_gdt` sets up. -/
example : quadword (gdtSetEntry (fun _ => 0) 1 0 0xFFFFFFFF 0x9A 0xAF) 1 = 0x00AF9A000000FFFF := by
  decide

/-- `gdt_set_entry_long` does so in two slots. -/
theorem gdtSetEntryLong_decodes (base : UInt64) :
    systemDescriptor (quadword (gdtSetEntryLong gdt idx base limit access gran) idx.toNat)
        (quadword (gdtSetEntryLong gdt idx base limit access gran) (idx.toNat + 1)) =
        ⟨base.toNat, limit.toNat % 2 ^ 20, access.toNat, gran.toNat / 2 ^ 4⟩ ∧
      ∀ a, a / 8 ≠ idx.toNat → a / 8 ≠ idx.toNat + 1 →
        gdtSetEntryLong gdt idx base limit access gran a = gdt a := by
  constructor
  · have hbase := base.toNat_lt
    have hlow : segmentDescriptor (quadword _ idx.toNat) = _ :=
      (gdtSetEntryLong_fields gdt idx limit access gran base).descriptor
        access.toNat_lt gran.toNat_lt
    have hhigh : quadword _ (idx.toNat + 1) = _ :=
      gdtSetEntryLong_high gdt idx limit access gran base
    rw [systemDescriptor, hlow, hhigh, SegmentDescriptor.mk.injEq]
    refine ⟨?_, rfl, rfl, rfl⟩
    simp only [bits]
    omega
  · intro a ha ha'
    simp (disch := omega) only [gdtSetEntryLong, store_of_notMem]

end Gdt

/-! ### The entries of the IDT -/

theorem setIdtEntry_fields (idt : Table) (idx : UInt8) (fn : UInt64) (attributes : UInt16)
    (ist : UInt8) :
    GateFields (setIdtEntry idt idx fn attributes ist) (16 * idx.toNat) fn.toNat 0x08
      attributes.toNat ist.toNat := by
  constructor
  all_goals simp (disch := omega) only [setIdtEntry, load_store, load_store_of_disjoint]
  · rw [toNat_and_mask (w := 16) rfl]
    omega
  · rfl
  · have hmask : (0x07 : UInt8).toNat = 2 ^ 3 - 1 := rfl
    rw [UInt8.toNat_and, hmask, Nat.and_two_pow_sub_one_eq_mod]
    omega
  · rfl
  · rw [toNat_and_mask (w := 16) rfl, toNat_shiftRight (n := 16) rfl]
    omega
  · rw [toNat_and_mask (w := 32) rfl, toNat_shiftRight (n := 32) rfl]
    omega

/-- `set_idt_entry` writes a gate to its handler. -/
theorem setIdtEntry_decodes (idt : Table) (idx : UInt8) (fn : UInt64) (attributes : UInt16)
    (ist : UInt8) :
    gateDescriptor (quadword (setIdtEntry idt idx fn attributes ist) (2 * idx.toNat))
        (quadword (setIdtEntry idt idx fn attributes ist) (2 * idx.toNat + 1)) =
        ⟨fn.toNat, 0x08, ist.toNat % 2 ^ 3, attributes.toNat % 2 ^ 8⟩ ∧
      ∀ a, a / 16 ≠ idx.toNat → setIdtEntry idt idx fn attributes ist a = idt a := by
  constructor
  · have hlow : 8 * (2 * idx.toNat) = 16 * idx.toNat := by omega
    have hhigh : 8 * (2 * idx.toNat + 1) = 16 * idx.toNat + 8 := by omega
    rw [quadword, quadword, hlow, hhigh]
    exact (setIdtEntry_fields idt idx fn attributes ist).descriptor fn.toNat_lt (by decide)
  · intro a ha
    simp (disch := omega) only [setIdtEntry, store_of_notMem]

/-! ### All three -/

/-- What the encoders write is decoded to what they were given, and they write in their
slots only. -/
theorem descriptors_decode :
    (∀ (gdt : Table) (idx limit : UInt32) (access gran : UInt8) (base : UInt32),
      segmentDescriptor (quadword (gdtSetEntry gdt idx base limit access gran) idx.toNat) =
          ⟨base.toNat, limit.toNat % 2 ^ 20, access.toNat, gran.toNat / 2 ^ 4⟩ ∧
        ∀ a, a / 8 ≠ idx.toNat → gdtSetEntry gdt idx base limit access gran a = gdt a) ∧
    (∀ (gdt : Table) (idx limit : UInt32) (access gran : UInt8) (base : UInt64),
      systemDescriptor (quadword (gdtSetEntryLong gdt idx base limit access gran) idx.toNat)
          (quadword (gdtSetEntryLong gdt idx base limit access gran) (idx.toNat + 1)) =
          ⟨base.toNat, limit.toNat % 2 ^ 20, access.toNat, gran.toNat / 2 ^ 4⟩ ∧
        ∀ a, a / 8 ≠ idx.toNat → a / 8 ≠ idx.toNat + 1 →
          gdtSetEntryLong gdt idx base limit access gran a = gdt a) ∧
    ∀ (idt : Table) (idx : UInt8) (fn : UInt64) (attributes : UInt16) (ist : UInt8),
      gateDescriptor (quadword (setIdtEntry idt idx fn attributes ist) (2 * idx.toNat))
          (quadword (setIdtEntry idt idx fn attributes ist) (2 * idx.toNat + 1)) =
          ⟨fn.toNat, 0x08, ist.toNat % 2 ^ 3, attributes.toNat % 2 ^ 8⟩ ∧
        ∀ a, a / 16 ≠ idx.toNat → setIdtEntry idt idx fn attributes ist a = idt a :=
  ⟨gdtSetEntry_decodes, gdtSetEntryLong_decodes, setIdtEntry_decodes⟩

end Betelgeuse
