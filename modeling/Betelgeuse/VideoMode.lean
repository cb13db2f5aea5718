/-
The search for a video mode (`efi_main` in `bootloader/arch/x86_64/uefi_boot.c`).

The loop asks the graphics protocol for each mode.  The mode that is set is the last one of
0x500 x 0x320 pixels, but the boot table is filled in for every mode that is 0x500 wide, so
its `px_per_scan` is that of the last of these.  It describes the mode that is set if the two
have the same number of pixels per scan line (`describesMode_iff`).
-/
import Mathlib.Data.List.Basic
import Mathlib.Data.UInt

namespace Betelgeuse

namespace VideoMode

/-- What `QueryMode` gives for a mode, as far as it is read. -/
structure ModeInformation where
  horizontalResolution : UInt32
  verticalResolution : UInt32
  pixelsPerScanLine : UInt32
  deriving DecidableEq

/-- The status of a call; warnings are no errors. -/
inductive Status where
  | success
  | bufferTooSmall
  | error
  deriving DecidableEq

/-- `EFI_ERROR`. -/
def Status.isError : Status → Bool
  | .success => false
  | .bufferTooSmall | .error => true

/-- How the firmware answers in one round: `QueryMode`, `AllocatePool` and `QueryMode` once
more for a buffer that is too small, and `FreePool`. -/
structure Answers where
  query : Status
  allocate : Status
  queryAgain : Status
  free : Status

/-- `boot_table.graphics_mode`, without the framebuffer. -/
structure GraphicsMode where
  width : UInt64
  height : UInt64
  pxPerScan : UInt64
  deriving DecidableEq

/-- The variables of the loop. -/
structure Search where
  res1280x720 : UInt64
  graphicsMode : GraphicsMode
  deriving DecidableEq

/-- `ERR`, which leaves `efi_main`. -/
def err (status : Status) : Option Unit := if status.isError then none else some ()

/-- The calls of `QueryMode`. -/
def queryMode (answers : Answers) : Option Unit :=
  if answers.query = .bufferTooSmall then do
    err answers.allocate
    err answers.queryAgain
  else err answers.query

/-- What a round does with the mode that was reported. -/
def Search.noteMode (s : Search) (i : ℕ) (mode : ModeInformation) : Search :=
  if mode.horizontalResolution = 0x500 then
    { res1280x720 := if mode.verticalResolution = 0x320 then UInt64.ofNat i else s.res1280x720
      graphicsMode := ⟨0x500, 0x320, mode.pixelsPerScanLine.toUInt64⟩ }
  else s

/-- The rounds from `i` on. -/
def searchFrom (answers : ℕ → Answers) : ℕ → List ModeInformation → Search → Option Search
  | _, [], s => some s
  | i, mode :: modes, s => do
    queryMode (answers i)
    err (answers i).free
    searchFrom answers (i + 1) modes (s.noteMode i mode)

/-- `graphics_output->Mode->MaxMode + 1`. -/
def noMode (modes : List ModeInformation) : UInt64 := (UInt32.ofNat modes.length + 1).toUInt64

/-- The search: the mode for `SetMode` and the boot table, if there is no error. -/
def search (answers : ℕ → Answers) (modes : List ModeInformation) (bootTable : GraphicsMode) :
    Option Search := do
  let s ← searchFrom answers 0 modes ⟨noMode modes, bootTable⟩
  if s.res1280x720 = noMode modes then none else return s

/-! ### The condition -/

/-- 0x500 pixels wide. -/
def ModeInformation.Wide (mode : ModeInformation) : Prop := mode.horizontalResolution = 0x500

/-- 0x500 x 0x320 pixels. -/
def ModeInformation.Wanted (mode : ModeInformation) : Prop :=
  mode.Wide ∧ mode.verticalResolution = 0x320

instance : DecidablePred ModeInformation.Wide :=
  fun mode => inferInstanceAs (Decidable (mode.horizontalResolution = 0x500))

instance : DecidablePred ModeInformation.Wanted :=
  fun mode => inferInstanceAs (Decidable (mode.Wide ∧ _))

/-- The last mode with a property. -/
def lastMode (p : ModeInformation → Prop) [DecidablePred p] (modes : List ModeInformation) :
    Option ModeInformation :=
  (modes.filter fun mode => decide (p mode)).getLast?

/-- The last wide mode has as many pixels in a scan line as the last wanted one. -/
def SameScanLine (modes : List ModeInformation) : Prop :=
  (lastMode ModeInformation.Wide modes).map (·.pixelsPerScanLine) =
    (lastMode ModeInformation.Wanted modes).map (·.pixelsPerScanLine)

instance (modes : List ModeInformation) : Decidable (SameScanLine modes) :=
  inferInstanceAs (Decidable (_ = _))

/-- The boot table describes the mode that is set. -/
def DescribesMode (modes : List ModeInformation) (s : Search) : Prop :=
  ∃ mode, modes[s.res1280x720.toNat]? = some mode ∧
    s.graphicsMode.width = mode.horizontalResolution.toUInt64 ∧
    s.graphicsMode.height = mode.verticalResolution.toUInt64 ∧
    s.graphicsMode.pxPerScan = mode.pixelsPerScanLine.toUInt64

/-! ### The rounds -/

section Search

variable {answers : ℕ → Answers} {modes : List ModeInformation} {mode : ModeInformation}
  {s s' : Search} {i : ℕ}

/-- A round that is not left. -/
theorem searchFrom_cons (h : searchFrom answers i (mode :: modes) s = some s') :
    searchFrom answers (i + 1) modes (s.noteMode i mode) = some s' := by
  obtain ⟨-, -, h⟩ := Option.bind_eq_some_iff.mp h
  obtain ⟨-, -, h⟩ := Option.bind_eq_some_iff.mp h
  exact h

theorem lastMode_cons (p : ModeInformation → Prop) [DecidablePred p] (mode : ModeInformation)
    (modes : List ModeInformation) :
    lastMode p (mode :: modes) = (lastMode p modes).or (if p mode then some mode else none) := by
  rw [lastMode, lastMode, List.filter_cons]
  by_cases hp : p mode
  · rw [if_pos (decide_eq_true hp), if_pos hp, List.getLast?_cons]
    cases (modes.filter fun mode => decide (p mode)).getLast? <;> rfl
  · rw [if_neg (by simpa using hp), if_neg hp, Option.or_none]

theorem of_lastMode {p : ModeInformation → Prop} [DecidablePred p]
    (h : lastMode p modes = some mode) : p mode := by
  have hmem := List.mem_of_getLast? h
  exact of_decide_eq_true (List.mem_filter.mp hmem).2

theorem exists_lastMode {p : ModeInformation → Prop} [DecidablePred p] (hmem : mode ∈ modes)
    (hp : p mode) : ∃ last, lastMode p modes = some last := by
  cases hlast : lastMode p modes with
  | some last => exact ⟨last, rfl⟩
  | none =>
    have hnil := List.getLast?_eq_none_iff.mp hlast
    exact absurd hp (by simpa using List.filter_eq_nil_iff.mp hnil mode hmem)

theorem noteMode_of_wide (h : mode.Wide) : s.noteMode i mode =
    { res1280x720 := if mode.verticalResolution = 0x320 then UInt64.ofNat i else s.res1280x720
      graphicsMode := ⟨0x500, 0x320, mode.pixelsPerScanLine.toUInt64⟩ } := if_pos h

theorem noteMode_of_not_wide (h : ¬ mode.Wide) : s.noteMode i mode = s := if_neg h

/-- The boot table is that of the last wide mode. -/
theorem graphicsMode_of_searchFrom (h : searchFrom answers i modes s = some s') :
    s'.graphicsMode = ((lastMode ModeInformation.Wide modes).map fun mode =>
      ⟨0x500, 0x320, mode.pixelsPerScanLine.toUInt64⟩).getD s.graphicsMode := by
  induction modes generalizing i s with
  | nil =>
    obtain rfl := Option.some.inj h
    rfl
  | cons mode modes ih =>
    rw [ih (searchFrom_cons h), lastMode_cons]
    cases lastMode ModeInformation.Wide modes with
    | some last => rfl
    | none =>
      by_cases hwide : mode.Wide
      · rw [if_pos hwide, noteMode_of_wide hwide]
        rfl
      · rw [if_neg hwide, noteMode_of_not_wide hwide]
        rfl

/-- The mode that is set is the last wanted one. -/
theorem res1280x720_of_searchFrom (h : searchFrom answers i modes s = some s') :
    (lastMode ModeInformation.Wanted modes = none ∧ s'.res1280x720 = s.res1280x720) ∨
      ∃ k mode, modes[k]? = some mode ∧ lastMode ModeInformation.Wanted modes = some mode ∧
        s'.res1280x720 = UInt64.ofNat (i + k) := by
  induction modes generalizing i s with
  | nil =>
    obtain rfl := Option.some.inj h
    exact .inl ⟨rfl, rfl⟩
  | cons mode modes ih =>
    rw [lastMode_cons]
    rcases ih (searchFrom_cons h) with ⟨hnone, hres⟩ | ⟨k, last, hk, hlast, hres⟩
    · rw [hnone, Option.none_or]
      by_cases hwanted : mode.Wanted
      · refine .inr ⟨0, mode, rfl, if_pos hwanted, ?_⟩
        rw [hres, noteMode_of_wide hwanted.1, Nat.add_zero]
        exact if_pos hwanted.2
      · refine .inl ⟨if_neg hwanted, hres.trans ?_⟩
        by_cases hwide : mode.Wide
        · rw [noteMode_of_wide hwide]
          exact if_neg fun hheight => hwanted ⟨hwide, hheight⟩
        · rw [noteMode_of_not_wide hwide]
    · refine .inr ⟨k + 1, last, hk, by rw [hlast]; rfl, ?_⟩
      rw [hres, Nat.add_right_comm, Nat.add_assoc]

/-- The boot table describes the mode that is set if and only if the last wide mode has as
many pixels in a scan line as the last wanted one. -/
theorem describesMode_iff {bootTable : GraphicsMode} (hmax : modes.length < 2 ^ 32)
    (h : search answers modes bootTable = some s) : DescribesMode modes s ↔ SameScanLine modes := by
  obtain ⟨s', hloop, h⟩ := Option.bind_eq_some_iff.mp h
  have hfound : s'.res1280x720 ≠ noMode modes := by
    intro heq
    rw [if_pos heq] at h
    cases h
  rw [if_neg hfound] at h
  obtain rfl := Option.some.inj h
  -- the mode that is set is the last one that is wanted, of the wide modes
  rcases res1280x720_of_searchFrom hloop with ⟨-, hres⟩ | ⟨k, mode, hk, hwanted, hres⟩
  · exact absurd hres hfound
  have hfit := of_lastMode hwanted
  obtain ⟨wide, hwide⟩ := exists_lastMode (p := ModeInformation.Wide)
    (List.mem_of_getElem? hk) hfit.1
  have htable := graphicsMode_of_searchFrom hloop
  rw [hwide] at htable
  have hindex : s'.res1280x720.toNat = k := by
    have hlt : k < modes.length := (List.getElem?_eq_some_iff.mp hk).1
    rw [hres, Nat.zero_add]
    exact UInt64.toNat_ofNat_of_lt' (hlt.trans (hmax.trans (by decide)))
  have hsame : SameScanLine modes ↔ wide.pixelsPerScanLine = mode.pixelsPerScanLine := by
    rw [SameScanLine, hwide, hwanted]
    exact Option.some_inj
  rw [hsame]
  constructor
  · rintro ⟨mode', hmode', -, -, hpx⟩
    rw [hindex, hk] at hmode'
    obtain rfl := Option.some.inj hmode'
    rw [htable] at hpx
    exact UInt32.toUInt64_inj.mp hpx
  · intro hpx
    refine ⟨mode, by rw [hindex, hk], ?_, ?_, ?_⟩
    · rw [htable, show mode.horizontalResolution = 0x500 from hfit.1]
      rfl
    · rw [htable, hfit.2]
      rfl
    · rw [htable, ← hpx]
      rfl

/-- The firmware answers without an error. -/
def noError : ℕ → Answers := fun _ => ⟨.success, .success, .success, .success⟩

/-- A boot table that is not filled in yet. -/
def emptyTable : GraphicsMode := ⟨0, 0, 0⟩

/-- Two modes that are 0x500 wide, with scan lines of the same length. -/
theorem describesMode_iff_sameScanLine :
    DescribesMode [⟨0x500, 0x320, 0x500⟩, ⟨0x500, 0x400, 0x500⟩] ⟨0, ⟨0x500, 0x320, 0x500⟩⟩ := by
  have hrun : search noError [⟨0x500, 0x320, 0x500⟩, ⟨0x500, 0x400, 0x500⟩] emptyTable =
      some ⟨0, ⟨0x500, 0x320, 0x500⟩⟩ := by decide
  exact (describesMode_iff (by decide) hrun).mpr (by decide)

/-- The second mode has longer scan lines, and it is the first that is set. -/
theorem describesMode_fails :
    ¬ ∀ (answers : ℕ → Answers) (modes : List ModeInformation) (bootTable : GraphicsMode)
      (s : Search), modes.length < 2 ^ 32 → search answers modes bootTable = some s →
      DescribesMode modes s := by
  intro h
  obtain ⟨mode, hmode, -, -, hpx⟩ := h noError [⟨0x500, 0x320, 0x500⟩, ⟨0x500, 0x400, 0x540⟩]
    emptyTable ⟨0, ⟨0x500, 0x320, 0x540⟩⟩ (by decide) (by decide)
  obtain rfl := Option.some.inj hmode
  exact absurd hpx (by decide)

end Search

end VideoMode

end Betelgeuse
