/-
The tables of the processor (`load_gdt` in `kernel/arch/x86_64/gdt.c` with `gdt_asm.s`,
`install_interrupts` in `interrupts.c` with `irqs.s`).

`deliver` is what the processor does with an interrupt: it takes the gate of the vector, checks
that it is present and leads to a 64-bit code segment, and pushes a frame on the stack that the
gate asks for.  Where this fails it raises another exception, of which the last is the double
fault.

The kernel has a gate for the breakpoint and one for the double fault, so that every interrupt
ends in one of the two handlers (`deliver_kernelTables`).  The stack of the double fault grows
down from the first byte of `double_fault_stack`, so that no byte of its frame lies in the
array.
-/
import Betelgeuse.Descriptors

open LittleEndian WordArith

namespace Betelgeuse

/-- The operand of `lgdt` and `lidt`. -/
structure TableRegister where
  base : UInt64
  limit : UInt16

/-- A present gate or segment. -/
def Present (access : ℕ) : Prop := bits access 7 1 = 1

/-- A present 64-bit code segment of the kernel. -/
def CodeSegment (d : SegmentDescriptor) : Prop :=
  Present d.access ∧ bits d.access 3 4 = 3 ∧ bits d.flags 1 2 = 1

instance (access : ℕ) : Decidable (Present access) := inferInstanceAs (Decidable (_ = _))

instance (d : SegmentDescriptor) : Decidable (CodeSegment d) :=
  inferInstanceAs (Decidable (_ ∧ _))

/-- The tables with the registers that point to them.  The task register has the descriptor of
the task state segment, if it has been loaded. -/
structure DescriptorTables where
  gdt : Table
  tss : Table
  idt : Table
  tssAddress : UInt64
  gdtr : TableRegister
  idtr : TableRegister
  cs : UInt16
  tr : Option SegmentDescriptor

namespace DescriptorTables

/-! ### The code -/

/-- `write_tss`. -/
def writeTss (doubleFaultStack : UInt64) (tss : Table) : Table :=
  let tss := store tss 36 4 (doubleFaultStack &&& 0xFFFFFFFF).toNat
  store tss 40 4 (doubleFaultStack >>> 32).toNat

/-- `set_gdt`, up to the other segment registers. -/
def setGdt (gdt size : UInt64) (s : DescriptorTables) : DescriptorTables :=
  { s with gdtr := ⟨gdt, size.toUInt16⟩, cs := 0x8 }

/-- `set_tss`: `ltr` takes a task state segment that is not busy, and marks it as busy. -/
def setTss (tssOffset : UInt64) (s : DescriptorTables) : DescriptorTables :=
  let slot := tssOffset.toUInt16.toNat / 8
  let d := systemDescriptor (quadword s.gdt slot) (quadword s.gdt (slot + 1))
  if 8 * slot + 15 ≤ s.gdtr.limit.toNat ∧ Present d.access ∧ bits d.access 0 5 = 9 then
    { s with gdt := store s.gdt (8 * slot + 5) 1 (d.access + 2), tr := some d }
  else { s with tr := none }

/-- `TSS_GDT_IDX`. -/
def tssGdtIdx : UInt32 := 5

/-- `load_gdt`, with the addresses of `gdt` and `double_fault_stack`. -/
def loadGdt (gdtAddress doubleFaultStack : UInt64) (s : DescriptorTables) : DescriptorTables :=
  let gdt := gdtSetEntry s.gdt 0 0 0 0 0
  let gdt := gdtSetEntry gdt 1 0 0xFFFFFFFF 0x9A 0xAF
  let gdt := gdtSetEntry gdt 2 0 0xFFFFFFFF 0x92 0xAF
  let gdt := gdtSetEntry gdt 3 0 0xFFFFFFFF 0xFA 0xAF
  let gdt := gdtSetEntry gdt 4 0 0xFFFFFFFF 0xF2 0xAF
  let gdt := gdtSetEntryLong gdt tssGdtIdx s.tssAddress 104 0x89 0x40
  let s := { s with gdt := gdt, tss := writeTss doubleFaultStack s.tss }
  (s.setGdt gdtAddress (56 - 1)).setTss (tssGdtIdx * 8).toUInt64

/-- The body of the loop of `install_interrupts`. -/
def clearIdtEntry (idt : Table) (i : ℕ) : Table :=
  let entry := 16 * i
  let idt := store idt (entry + 4) 1 0
  let idt := store idt entry 2 0
  let idt := store idt (entry + 6) 2 0
  let idt := store idt (entry + 8) 4 0
  let idt := store idt (entry + 2) 2 0
  let idt := store idt (entry + 5) 1 0
  store idt (entry + 12) 4 0

/-- The loop with `n` rounds left. -/
def clearIdt : ℕ → ℕ → Table → Table
  | 0, _, idt => idt
  | n + 1, i, idt => clearIdt n (i + 1) (clearIdtEntry idt i)

/-- `load_idt`. -/
def loadIdt (idt size : UInt64) (s : DescriptorTables) : DescriptorTables :=
  { s with idtr := ⟨idt, size.toUInt16⟩ }

/-- `install_interrupts`, with the addresses of the handlers and of `idt`. -/
def installInterrupts (idtAddress breakpointHandler doubleFaultHandler : UInt64)
    (s : DescriptorTables) : DescriptorTables :=
  let idt := clearIdt 256 0 s.idt
  let idt := setIdtEntry idt 3 breakpointHandler 0x8e 0
  let idt := setIdtEntry idt 8 doubleFaultHandler 0x8e 1
  { s with idt := idt }.loadIdt idtAddress 4096

/-! ### The processor -/

/-- Where a handler is entered: the frame is pushed down from `rsp`. -/
structure Entry where
  rip : ℕ
  cs : ℕ
  rsp : ℕ
  deriving DecidableEq

/-- What becomes of an interrupt: a handler is entered, with the vector that led there, or the
processor shuts down. -/
inductive Outcome where
  | handled (vector : ℕ) (entry : Entry)
  | shutdown
  deriving DecidableEq

variable (s : DescriptorTables)

/-- The descriptor of a code segment, if the selector lies within the limit. -/
def codeSegment (selector : ℕ) : Option SegmentDescriptor :=
  let d := segmentDescriptor (quadword s.gdt (selector / 8))
  if 8 * (selector / 8) + 7 ≤ s.gdtr.limit.toNat ∧ CodeSegment d then some d else none

/-- The stack of a gate, which is aligned to 16 bytes. -/
def stackTop (ist rsp : ℕ) : Option ℕ :=
  if ist = 0 then some (rsp / 16 * 16)
  else
    match s.tr with
    | none => none
    | some d =>
      let field := 36 + 8 * (ist - 1)
      if d.base = s.tssAddress.toNat ∧ field + 7 ≤ d.limit then
        some (load s.tss field 8 / 16 * 16)
      else none

/-- The gate of a vector, if it lies within the limit. -/
def gate (v : ℕ) : Option GateDescriptor :=
  if 16 * v + 15 ≤ s.idtr.limit.toNat then
    some (gateDescriptor (quadword s.idt (2 * v)) (quadword s.idt (2 * v + 1)))
  else none

/-- Enter the handler of a vector, or else the exception that is raised. -/
def enter (v rsp : ℕ) : Except ℕ Entry :=
  match s.gate v with
  | none => .error 13
  | some g =>
    if ¬ (bits g.attributes 0 5 = 14 ∨ bits g.attributes 0 5 = 15) then .error 13
    else if ¬ Present g.attributes then .error 11
    else
      match s.codeSegment g.selector, s.stackTop g.ist rsp with
      | some _, some top => .ok ⟨g.offset, g.selector, top⟩
      | none, _ => .error 13
      | _, none => .error 10

/-- The double fault, behind which the processor shuts down. -/
def doubleFault (rsp : ℕ) : Outcome :=
  match s.enter 8 rsp with
  | .ok e => .handled 8 e
  | .error _ => .shutdown

/-- The exceptions during whose delivery another exception makes a double fault. -/
def Contributory (v : ℕ) : Prop := v = 0 ∨ (10 ≤ v ∧ v ≤ 14)

instance (v : ℕ) : Decidable (Contributory v) := inferInstanceAs (Decidable (_ ∨ _))

/-- Deliver the interrupt `v` while the stack pointer is `rsp`. -/
def deliver (v rsp : ℕ) : Outcome :=
  match s.enter v rsp with
  | .ok e => .handled v e
  | .error fault =>
    if v = 8 then .shutdown
    else if Contributory v then s.doubleFault rsp
    else
      match s.enter fault rsp with
      | .ok e => .handled fault e
      | .error _ => s.doubleFault rsp

/-! ### The tables of the kernel -/

section Tables

variable {gdt idt t : Table} {slot : ℕ}

theorem quadword_gdtSetEntry {idx base limit : UInt32} {access gran : UInt8}
    (h : slot ≠ idx.toNat) :
    quadword (gdtSetEntry gdt idx base limit access gran) slot = quadword gdt slot :=
  load_congr fun a hle hlt => (gdtSetEntry_decodes gdt idx limit access gran base).2 a (by omega)

theorem quadword_gdtSetEntryLong {idx limit : UInt32} {base : UInt64} {access gran : UInt8}
    (h : slot ≠ idx.toNat) (h' : slot ≠ idx.toNat + 1) :
    quadword (gdtSetEntryLong gdt idx base limit access gran) slot = quadword gdt slot :=
  load_congr fun a hle hlt =>
    (gdtSetEntryLong_decodes gdt idx limit access gran base).2 a (by omega) (by omega)

theorem quadword_setIdtEntry {idx : UInt8} {fn : UInt64} {attributes : UInt16} {ist : UInt8}
    (h : slot / 2 ≠ idx.toNat) :
    quadword (setIdtEntry idt idx fn attributes ist) slot = quadword idt slot :=
  load_congr fun a hle hlt => (setIdtEntry_decodes idt idx fn attributes ist).2 a (by omega)

theorem load_writeTss (doubleFaultStack : UInt64) (tss : Table) :
    load (writeTss doubleFaultStack tss) 36 8 = doubleFaultStack.toNat := by
  have hstack := doubleFaultStack.toNat_lt
  have hfields := load_add (writeTss doubleFaultStack tss) 36 4 4
  rw [hfields]
  simp (disch := omega) only [writeTss, load_store, load_store_of_disjoint]
  rw [toNat_and_mask (w := 32) rfl, toNat_shiftRight (n := 32) rfl]
  omega

theorem clearIdtEntry_apply (i a : ℕ) :
    clearIdtEntry idt i a = if a / 16 = i then 0 else idt a := by
  by_cases ha : a / 16 = i
  · rw [if_pos ha]
    simp only [clearIdtEntry, store, Nat.zero_div]
    split_ifs
    all_goals first | rfl | omega
  · rw [if_neg ha]
    simp (disch := omega) only [clearIdtEntry, store_of_notMem]

/-- The loop clears the entries from `i` on. -/
theorem clearIdt_apply (n a : ℕ) : ∀ (i : ℕ) (idt : Table),
    clearIdt n i idt a = if i ≤ a / 16 ∧ a / 16 < i + n then 0 else idt a := by
  induction n with
  | zero => exact fun i idt => (if_neg (by omega)).symm
  | succ n ih =>
    intro i idt
    rw [clearIdt, ih, clearIdtEntry_apply]
    split_ifs
    all_goals first | rfl | omega

theorem quadword_clearIdt (h : slot < 512) : quadword (clearIdt 256 0 idt) slot = 0 := by
  have hzero : quadword (clearIdt 256 0 idt) slot = load (fun _ => 0) (8 * slot) 8 :=
    load_congr fun a hle hlt => by rw [clearIdt_apply, if_pos (by omega)]
  rw [hzero]
  rfl

end Tables

section Kernel

variable (s : DescriptorTables) (gdtAddress idtAddress doubleFaultStack breakpointHandler
  doubleFaultHandler : UInt64)

/-- What `load_gdt` leaves behind: a code segment in slot 1, and the task state segment with the
stack of the double fault. -/
theorem loadGdt_eq : ∃ gdt : Table,
    segmentDescriptor (quadword gdt 1) = ⟨0, 2 ^ 20 - 1, 0x9A, 10⟩ ∧
      s.loadGdt gdtAddress doubleFaultStack =
        { s with
          gdt := gdt
          tss := writeTss doubleFaultStack s.tss
          gdtr := ⟨gdtAddress, 55⟩
          cs := 8
          tr := some ⟨s.tssAddress.toNat, 104, 0x89, 4⟩ } := by
  -- the entries that are written one after the other
  obtain ⟨code, hcode⟩ : ∃ g : Table, g =
      gdtSetEntry (gdtSetEntry s.gdt 0 0 0 0 0) 1 0 0xFFFFFFFF 0x9A 0xAF := ⟨_, rfl⟩
  obtain ⟨short, hshort⟩ : ∃ g : Table, g = gdtSetEntry (gdtSetEntry (gdtSetEntry code
      2 0 0xFFFFFFFF 0x92 0xAF) 3 0 0xFFFFFFFF 0xFA 0xAF) 4 0 0xFFFFFFFF 0xF2 0xAF := ⟨_, rfl⟩
  obtain ⟨long, hlong⟩ : ∃ g : Table, g =
    gdtSetEntryLong short tssGdtIdx s.tssAddress 104 0x89 0x40 := ⟨_, rfl⟩
  have hsegment : segmentDescriptor (quadword long 1) = ⟨0, 2 ^ 20 - 1, 0x9A, 10⟩ := by
    rw [hlong, quadword_gdtSetEntryLong (by decide) (by decide), hshort,
      quadword_gdtSetEntry (by decide), quadword_gdtSetEntry (by decide),
      quadword_gdtSetEntry (by decide), hcode]
    exact (gdtSetEntry_decodes _ 1 0xFFFFFFFF 0x9A 0xAF 0).1
  have hsystem : systemDescriptor (quadword long 5) (quadword long 6) =
      ⟨s.tssAddress.toNat, 104, 0x89, 4⟩ := by
    rw [hlong]
    exact (gdtSetEntryLong_decodes short tssGdtIdx 104 0x89 0x40 s.tssAddress).1
  refine ⟨store long 45 1 (0x89 + 2), ?_, ?_⟩
  · rw [quadword, load_store_of_disjoint (.inr (by decide))]
    exact hsegment
  · have hslot : (tssGdtIdx * 8).toUInt64.toUInt16.toNat / 8 = 5 := rfl
    rw [loadGdt]
    simp only [← hcode, ← hshort, ← hlong, setGdt, setTss, hslot, Nat.reduceAdd, hsystem]
    rw [if_pos (by decide)]
    rfl

/-- The gates: that of the breakpoint, that of the double fault, and empty ones. -/
def kernelGate (breakpointHandler doubleFaultHandler : UInt64) (v : UInt8) : GateDescriptor :=
  if v = 3 then ⟨breakpointHandler.toNat, 8, 0, 0x8e⟩
  else if v = 8 then ⟨doubleFaultHandler.toNat, 8, 1, 0x8e⟩
  else ⟨0, 0, 0, 0⟩

/-- The entries that `install_interrupts` leaves behind. -/
theorem installInterrupts_eq : ∃ idt : Table,
    (∀ v : UInt8, gateDescriptor (quadword idt (2 * v.toNat)) (quadword idt (2 * v.toNat + 1)) =
      kernelGate breakpointHandler doubleFaultHandler v) ∧
      s.installInterrupts idtAddress breakpointHandler doubleFaultHandler =
        { s with idt := idt, idtr := ⟨idtAddress, 4096⟩ } := by
  obtain ⟨idt, hidt⟩ : ∃ t : Table, t = clearIdt 256 0 s.idt := ⟨_, rfl⟩
  obtain ⟨bp, hbp⟩ : ∃ t : Table, t = setIdtEntry idt 3 breakpointHandler 0x8e 0 := ⟨_, rfl⟩
  obtain ⟨df, hdf⟩ : ∃ t : Table, t = setIdtEntry bp 8 doubleFaultHandler 0x8e 1 := ⟨_, rfl⟩
  refine ⟨df, fun v => ?_, ?_⟩
  · have hv := v.toNat_lt
    unfold kernelGate
    by_cases h₃ : v = 3
    · subst h₃
      rw [if_pos rfl, hdf, quadword_setIdtEntry (by decide), quadword_setIdtEntry (by decide), hbp]
      exact (setIdtEntry_decodes idt 3 breakpointHandler 0x8e 0).1
    by_cases h₈ : v = 8
    · subst h₈
      rw [if_neg h₃, if_pos rfl, hdf]
      exact (setIdtEntry_decodes bp 8 doubleFaultHandler 0x8e 1).1
    · have hne₃ : v.toNat ≠ (3 : UInt8).toNat := fun h => h₃ (UInt8.toNat_inj.mp h)
      have hne₈ : v.toNat ≠ (8 : UInt8).toNat := fun h => h₈ (UInt8.toNat_inj.mp h)
      have hempty : ∀ slot < 512, slot / 2 = v.toNat → quadword df slot = 0 := by
        intro slot hslot hdiv
        rw [hdf, quadword_setIdtEntry (hdiv ▸ hne₈), hbp, quadword_setIdtEntry (hdiv ▸ hne₃), hidt,
          quadword_clearIdt hslot]
      rw [if_neg h₃, if_neg h₈, hempty (2 * v.toNat) (by omega) (by omega),
        hempty (2 * v.toNat + 1) (by omega) (by omega)]
      rfl
  · rw [hdf, hbp, hidt]
    rfl

/-- An interrupt gate into a code segment. -/
theorem enter_interruptGate {v rsp offset selector ist top : ℕ} {d : SegmentDescriptor}
    (hgate : s.gate v = some ⟨offset, selector, ist, 0x8e⟩)
    (hcode : s.codeSegment selector = some d) (hstack : s.stackTop ist rsp = some top) :
    s.enter v rsp = .ok ⟨offset, selector, top⟩ := by
  have htype : bits 0x8e 0 5 = 14 := rfl
  have hpresent : Present 0x8e := rfl
  simp only [enter, hgate, htype, hpresent, hcode, hstack, true_or, not_true_eq_false, if_false]

/-- The tables behind the start of the kernel. -/
def kernelTables : DescriptorTables :=
  (s.loadGdt gdtAddress doubleFaultStack).installInterrupts idtAddress breakpointHandler
    doubleFaultHandler

/-- A vector with a gate leads to its handler, and any other one to a general protection. -/
theorem enter_kernelTables (v : UInt8) (rsp : ℕ) :
    (s.kernelTables gdtAddress idtAddress doubleFaultStack breakpointHandler
      doubleFaultHandler).enter v.toNat rsp =
      if v = 3 then .ok ⟨breakpointHandler.toNat, 8, rsp / 16 * 16⟩
      else if v = 8 then .ok ⟨doubleFaultHandler.toNat, 8, doubleFaultStack.toNat / 16 * 16⟩
      else .error 13 := by
  have hv := v.toNat_lt
  obtain ⟨gdt, hsegment, hgdt⟩ := s.loadGdt_eq gdtAddress doubleFaultStack
  obtain ⟨idt, hgates, hidt⟩ := (s.loadGdt gdtAddress doubleFaultStack).installInterrupts_eq
    idtAddress breakpointHandler doubleFaultHandler
  obtain ⟨k, hk⟩ : ∃ k : DescriptorTables, k = s.kernelTables gdtAddress idtAddress
    doubleFaultStack breakpointHandler doubleFaultHandler := ⟨_, rfl⟩
  have htables := hk.trans hidt
  rw [hgdt] at htables
  -- what the processor finds in the three tables
  have hgate : k.gate v.toNat = some (kernelGate breakpointHandler doubleFaultHandler v) := by
    have hlimit : k.idtr.limit.toNat = 4096 := by rw [htables]; rfl
    have htable : k.idt = idt := by rw [htables]
    rw [gate, hlimit, htable, hgates, if_pos (by omega)]
  have hcode : k.codeSegment 8 = some ⟨0, 2 ^ 20 - 1, 0x9A, 10⟩ := by
    have hlimit : k.gdtr.limit.toNat = 55 := by rw [htables]; rfl
    have htable : k.gdt = gdt := by rw [htables]
    rw [codeSegment, hlimit, htable, hsegment]
    rfl
  have hstack : k.stackTop 1 rsp = some (doubleFaultStack.toNat / 16 * 16) := by
    have htr : k.tr = some ⟨s.tssAddress.toNat, 104, 0x89, 4⟩ := by rw [htables]
    have haddress : k.tssAddress = s.tssAddress := by rw [htables]
    have htable : k.tss = writeTss doubleFaultStack s.tss := by rw [htables]
    rw [stackTop, htr, haddress, htable]
    show (if s.tssAddress.toNat = s.tssAddress.toNat ∧ 43 ≤ 104 then some (load _ 36 8 / 16 * 16)
      else none) = _
    rw [load_writeTss, if_pos ⟨rfl, by decide⟩]
  rw [← hk]
  unfold kernelGate at hgate
  -- the two vectors that have a gate, and the others
  by_cases h₃ : v = 3
  · rw [if_pos h₃] at hgate ⊢
    exact k.enter_interruptGate hgate hcode rfl
  rw [if_neg h₃] at hgate ⊢
  by_cases h₈ : v = 8
  · rw [if_pos h₈] at hgate ⊢
    exact k.enter_interruptGate hgate hcode hstack
  · rw [if_neg h₈] at hgate ⊢
    rw [enter, hgate]
    rfl

/-- Every interrupt ends in one of the two handlers, and whatever the processor and the handler of
the double fault push lies outside `double_fault_stack`. -/
theorem deliver_kernelTables (v : UInt8) (rsp : ℕ) :
    (s.kernelTables gdtAddress idtAddress doubleFaultStack breakpointHandler
        doubleFaultHandler).deliver v.toNat rsp =
      (if v = 3 then .handled 3 ⟨breakpointHandler.toNat, 8, rsp / 16 * 16⟩
      else .handled 8 ⟨doubleFaultHandler.toNat, 8, doubleFaultStack.toNat / 16 * 16⟩) ∧
    ∀ e, (s.kernelTables gdtAddress idtAddress doubleFaultStack breakpointHandler
        doubleFaultHandler).deliver v.toNat rsp = .handled 8 e →
      ∀ a < e.rsp, ¬ (doubleFaultStack.toNat ≤ a ∧ a < doubleFaultStack.toNat + 4096 * 5) := by
  obtain ⟨k, hk⟩ : ∃ k : DescriptorTables, k = s.kernelTables gdtAddress idtAddress
    doubleFaultStack breakpointHandler doubleFaultHandler := ⟨_, rfl⟩
  have henter := s.enter_kernelTables gdtAddress idtAddress doubleFaultStack breakpointHandler
    doubleFaultHandler
  rw [← hk] at henter ⊢
  have hdouble : k.doubleFault rsp =
      .handled 8 ⟨doubleFaultHandler.toNat, 8, doubleFaultStack.toNat / 16 * 16⟩ := by
    have henter₈ : k.enter 8 rsp = _ := henter 8 rsp
    rw [doubleFault, henter₈]
    rfl
  have hprotection : k.enter 13 rsp = .error 13 := henter 13 rsp
  have hdeliver : k.deliver v.toNat rsp =
      if v = 3 then .handled 3 ⟨breakpointHandler.toNat, 8, rsp / 16 * 16⟩
      else .handled 8 ⟨doubleFaultHandler.toNat, 8, doubleFaultStack.toNat / 16 * 16⟩ := by
    rw [deliver, henter]
    by_cases h₃ : v = 3
    · rw [if_pos h₃, if_pos h₃, h₃]
      rfl
    rw [if_neg h₃, if_neg h₃]
    by_cases h₈ : v = 8
    · rw [if_pos h₈, h₈]
      rfl
    · have hne : v.toNat ≠ 8 := fun h => h₈ (UInt8.toNat_inj.mp h)
      rw [if_neg h₈]
      simp only [if_neg hne, hprotection, hdouble, ite_self]
  refine ⟨hdeliver, fun e he a ha => ?_⟩
  -- the stack begins at the first byte of the array
  have hrsp : e.rsp = doubleFaultStack.toNat / 16 * 16 := by
    rw [hdeliver] at he
    split at he
    · exact absurd (Outcome.handled.inj he).1 (by decide)
    · exact (Outcome.handled.inj he).2 ▸ rfl
  omega

end Kernel

end DescriptorTables

end Betelgeuse
