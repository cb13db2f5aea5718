/-
What the bootloader may call, and when.

A state of the protocol has what a run has been given and has not given back, what has been
reported to it, and how far it has come: the boot services are there while it is `running`,
they have `exited`, the virtual mapping is `mapped`, or one of the two has `failed`; and the
bootloader has `left` for the kernel or with an error.

Every run keeps the protocol (`efiMain_accepts`).  The boot services are left once, with the
key of a memory map behind which nothing but text has been put out; then the kernel's image is
the only memory that is held beside pools that are lost, and the two folders are the only open
files.  The kernel is entered once all segments of a checked image are mapped, with a boot
table that holds what the firmware and the mapping have reported.
-/
import Betelgeuse.BootProgram

open ServicePrograms

namespace Betelgeuse

namespace BootProgram

/-- How far a run has come. -/
inductive Phase where
  | running
  | exited
  | mapped
  | failed
  | left
  deriving DecidableEq

/-- A state of the protocol.  `lostPools` counts the pools for the graphics modes whose
addresses are overwritten, and `wanted` has the numbers of the modes of 0x500 x 0x320
pixels. -/
structure BootState where
  phase : Phase
  files : List UInt64
  pools : List UInt64
  pages : List (UInt64 × UInt64)
  lostPools : ℕ
  image : Option FileBuffer
  wanted : List ℕ
  modeSet : Bool
  gopMode : Option GopMode
  memoryMap : Option MemoryMapInfo
  mappingBase : Option UInt64
  tables : Option (UInt64 × UInt64)
  segments : List Segment

/-- Where a run begins. -/
def BootState.start : BootState where
  phase := .running
  files := []
  pools := []
  pages := []
  lostPools := 0
  image := none
  wanted := []
  modeSet := false
  gopMode := none
  memoryMap := none
  mappingBase := none
  tables := none
  segments := []

namespace BootState

/-- The firmware can be called. -/
def Open (s : BootState) : Prop := s.phase = .running ∨ s.phase = .failed

/-- The segments of an image. -/
def imageSegments (image : FileBuffer) : List Segment :=
  kernelSegments image.addr image.size (programTableEntries image.contents)

/-- The boot table holds what has been reported, and describes the image. -/
structure Reported (s : BootState) (image : FileBuffer) (table : LoaderTable) : Prop where
  memoryMap : ∃ m, s.memoryMap = some m ∧ m.descSize ≠ 0 ∧ table.memDescSize = m.descSize ∧
    table.memDescCount = m.mapSize / m.descSize
  mappingBase : s.mappingBase = some table.mappingBase
  tables : s.tables = some (table.pml4Pointer, table.usedMappingPageCount)
  width : table.graphicsMode.width = 0x500
  height : table.graphicsMode.height = 0x320
  framebuffer : s.modeSet = true ∧ ∃ m, s.gopMode = some m ∧
    table.framebufferBase = m.frameBufferBase ∧ table.framebufferSize = m.frameBufferSize
  start : table.kernelStartPointer = firstVaddr (programTableEntries image.contents)
  count : table.kernelPageCount =
    firstPages image.size (programTableEntries image.contents)

/-- The calls that are allowed. -/
def allows (s : BootState) : BootCall → Prop
  | .readFile _ size buffer => s.phase = .running ∧
      ∃ pages, (buffer, pages) ∈ s.pages ∧ size.toNat < 4096 * pages.toNat
  | .freePool buffer => s.phase = .running ∧ buffer ∈ s.pools
  | .freePages memory pages => s.phase = .running ∧ (memory, pages) ∈ s.pages
  | .setGraphicsMode _ mode => s.phase = .running ∧ mode.toNat ∈ s.wanted
  | .exitBootServices key => s.phase = .running ∧
      (∃ m, s.memoryMap = some m ∧ key = m.mapKey) ∧
      (∃ image, s.image = some image ∧ s.pages = [(image.addr, image.pages)]) ∧
      s.files.length = 2 ∧ s.pools.length = s.lostPools + 2
  | .initVirtualMapping mappingType => s.phase = .exited ∧ mappingType = .mapAll
  | .getMappingPointersAndCount => s.phase = .mapped
  | .mapPages g => s.phase = .mapped ∧
      ∃ image, s.image = some image ∧ s.segments ++ [g] <+: imageSegments image
  | .reportMappingError status => s.phase = .mapped ∧ EfiStatus.isError status = true
  | .kmain entry table => s.phase = .mapped ∧
      ∃ image, s.image = some image ∧ (elfHeader image.contents).ok = true ∧
        s.segments = imageSegments image ∧ entry = entryAddr image.contents ∧
        s.Reported image table
  | _ => s.Open

/-- A call of the firmware can change the memory map. -/
@[simp] def touched (s : BootState) : BootState := { s with memoryMap := none }

@[simp] def setFiles (s : BootState) (files : List UInt64) : BootState := { s.touched with files }

@[simp] def setPools (s : BootState) (pools : List UInt64) : BootState := { s.touched with pools }

@[simp] def setPages (s : BootState) (pages : List (UInt64 × UInt64)) : BootState :=
  { s.touched with pages }

@[simp] def setImage (s : BootState) (image : FileBuffer) : BootState :=
  { s.touched with image := some image }

/-- What is handed out comes to the front if there is no error. -/
def handedOut {A : Type} (status : EfiStatus) (a : A) (held : List A) : List A :=
  if EfiStatus.isError status then held else a :: held

/-- The state behind a call. -/
@[simp] def next (s : BootState) : (c : BootCall) → Answer c → BootState
  | .outputString _, _ => s
  | .locateHandleBuffer _, (status, buffer, _) =>
    s.setPools (handedOut status buffer s.pools)
  | .openVolume _, (status, root) => s.setFiles (handedOut status root s.files)
  | .openFile _ _ _, (status, file) => s.setFiles (handedOut status file s.files)
  | .closeFile file, _ => s.setFiles (s.files.erase file)
  | .readFile _ size buffer, (_, read, contents) =>
    s.setImage ⟨buffer, read, size / 0x1000 + 1, contents⟩
  | .allocatePool _, (status, buffer) => s.setPools (handedOut status buffer s.pools)
  | .freePool buffer, _ => s.setPools (s.pools.erase buffer)
  | .allocatePages pages, (status, memory) =>
    s.setPages (handedOut status (memory, pages) s.pages)
  | .freePages memory pages, _ => s.setPages (s.pages.erase (memory, pages))
  | .queryMode _ i, (status, _, buffer, mode) =>
    { s.setPools (handedOut status buffer s.pools) with
      lostPools := if status = efiBufferTooSmall then s.lostPools + 1 else s.lostPools
      wanted := if mode.Wanted then handedOut status i s.wanted else s.wanted }
  | .setGraphicsMode _ _, _ => { s.touched with modeSet := true, gopMode := none }
  | .graphicsMode _, mode => { s with gopMode := some mode }
  | .getMemoryMap, (status, m) =>
    { s with memoryMap := if EfiStatus.isError status then none else some m }
  | .exitBootServices _, status =>
    { s with phase := if EfiStatus.isError status then .failed else .exited }
  | .initVirtualMapping _, (status, base) =>
    { s with
      phase := if EfiStatus.isError status then .failed else .mapped
      mappingBase := some base }
  | .getMappingPointersAndCount, tables => { s with tables := some tables }
  | .mapPages g, _ => { s with segments := s.segments ++ [g] }
  | .reportMappingError _, _ | .kmain _ _, _ => { s with phase := .left }
  | _, _ => s.touched

end BootState

/-- The protocol. -/
@[simp] def protocol : Monitor Answer BootState := ⟨BootState.allows, BootState.next⟩

/-! ### Text and errors -/

/-- Text is put out. -/
def IsText : BootCall → Prop
  | .outputString _ => True
  | _ => False

theorem isText_spec {s : BootState} (ho : s.Open) (c : BootCall) (hc : IsText c) :
    protocol.allows s c ∧ ∀ r, protocol.next s c r = s := by
  cases c with
  | outputString => exact ⟨ho, fun _ => rfl⟩
  | _ => exact hc.elim

theorem only_print (text : List UInt16) : (print text).Only IsText :=
  (only_request _ _).mpr trivial

theorem only_printHex64 (text : List UInt16) (val : UInt64) :
    (printHex64 text val).Only IsText := by
  refine only_bind (only_print _) fun status => ?_
  split
  · trivial
  · exact only_print _

theorem only_printlnChar (contents : ℕ → UInt8) (length : UInt64) :
    (printlnChar contents length).Only IsText := by
  unfold printlnChar
  split
  · trivial
  · refine only_bind (only_print _) fun status => ?_
    split
    · trivial
    · exact only_print _

theorem only_printError (status : EfiStatus) : (printError status).Only IsText :=
  only_bind (only_printHex64 _ _) fun _ => only_bind (only_print _) fun _ => trivial

theorem only_printMode (i : ℕ) (mode : VideoMode.ModeInformation) :
    (printMode i mode).Only IsText :=
  only_bind (only_printHex64 _ _) fun _ => only_bind (only_printHex64 _ _) fun _ =>
    only_bind (only_printHex64 _ _) fun _ => only_bind (only_print _) fun _ => trivial

/-- `end` is reached where the firmware can be called. -/
def exitOpen : Exit → BootState → Prop
  | .goEnd _, s => s.Open
  | .status _, _ => True

section

variable {A B : Type} {s : BootState} {folders : Folders} {status : EfiStatus}
  {Q : B → BootState → Prop}

theorem wp_text {E : Type} {X : E → BootState → Prop} {p : Boot A}
    {f : A → ExceptT E Boot B} (hp : p.Only IsText) (ho : s.Open)
    (hf : ∀ a, (f a).run.wp protocol (Outcome Q X) s) :
    ((liftM p : ExceptT E Boot A) >>= f).run.wp protocol (Outcome Q X) s :=
  wp_lift (hp.wp (isText_spec ho) hf)

theorem wp_goEnd (ho : s.Open) :
    (do printError status; throw (.goEnd folders) : ExceptT Exit Boot B).run.wp protocol
      (Outcome Q exitOpen) s :=
  wp_text (only_printError status) ho fun _ => ho

theorem wp_err_of {f : Unit → ExceptT Exit Boot B}
    (ho : EfiStatus.isError status = true → s.Open)
    (hf : EfiStatus.isError status = false → (f ()).run.wp protocol (Outcome Q exitOpen) s) :
    (err folders status >>= f).run.wp protocol (Outcome Q exitOpen) s := by
  refine wp_seq (P := fun _ s' => s' = s ∧ EfiStatus.isError status = false) ?_ ?_
  · unfold err
    split
    · rename_i herror
      exact wp_goEnd (ho herror)
    · rename_i hok
      exact ⟨rfl, eq_false_of_ne_true hok⟩
  · rintro _ _ ⟨rfl, hok⟩
    exact hf hok

theorem wp_err {f : Unit → ExceptT Exit Boot B} (ho : s.Open)
    (hf : EfiStatus.isError status = false → (f ()).run.wp protocol (Outcome Q exitOpen) s) :
    (err folders status >>= f).run.wp protocol (Outcome Q exitOpen) s :=
  wp_err_of (fun _ => ho) hf

theorem wp_errReturn {E : Type} {X : E → BootState → Prop} {result : EfiStatus → E}
    {f : Unit → ExceptT E Boot B} (he : X (result status) s)
    (hf : EfiStatus.isError status = false → (f ()).run.wp protocol (Outcome Q X) s) :
    (errReturn result status >>= f).run.wp protocol (Outcome Q X) s := by
  refine wp_seq (P := fun _ s' => s' = s ∧ EfiStatus.isError status = false) ?_ ?_
  · unfold errReturn
    split
    · exact he
    · rename_i hok
      exact ⟨rfl, eq_false_of_ne_true hok⟩
  · rintro _ _ ⟨rfl, hok⟩
    exact hf hok

theorem wp_errOf {p : ExceptT EfiStatus Boot B}
    (hp : p.run.wp protocol (Outcome Q fun _ s => s.Open) s) :
    (errOf folders p).run.wp protocol (Outcome Q exitOpen) s := by
  refine wp_lift (wp_mono hp ?_)
  rintro (e | b) s' h
  · exact wp_goEnd h
  · exact h

theorem handedOut_of_ok {a : A} {held : List A} (hok : EfiStatus.isError status = false) :
    BootState.handedOut status a held = a :: held := if_neg (ne_true_of_eq_false hok)

theorem handedOut_of_error {a : A} {held : List A} (herror : EfiStatus.isError status = true) :
    BootState.handedOut status a held = held := if_pos herror

/-- Calls that do not change how far a run has come. -/
def KeepsPhase : BootCall → Prop
  | .exitBootServices _ | .initVirtualMapping _ | .reportMappingError _ | .kmain _ _ => False
  | _ => True

theorem phase_next {c : BootCall} (hc : KeepsPhase c) (r : Answer c) :
    (protocol.next s c r).phase = s.phase := by
  cases c with
  | exitBootServices | initVirtualMapping | reportMappingError | kmain => exact hc.elim
  | _ => rfl

theorem wp_running {E : Type} {X : E → BootState → Prop} {c : BootCall}
    {f : Answer c → ExceptT E Boot B} (hrun : s.phase = .running) (ha : protocol.allows s c)
    (hc : KeepsPhase c)
    (hf : ∀ r, (protocol.next s c r).phase = .running →
      (f r).run.wp protocol (Outcome Q X) (protocol.next s c r)) :
    ((liftM (Prog.request c : Boot (Answer c)) : ExceptT E Boot (Answer c)) >>= f).run.wp
      protocol (Outcome Q X) s :=
  wp_call ha fun r => hf r ((phase_next hc r).trans hrun)

theorem setUp_spec (hrun : s.phase = .running) :
    setUp.run.wp protocol (Outcome (fun _ s' => s' = s.touched) exitOpen) s := by
  refine wp_running hrun (.inl hrun) trivial fun _ hrun => wp_err (.inl hrun) fun _ => ?_
  refine wp_running hrun (.inl hrun) trivial fun _ hrun => wp_err (.inl hrun) fun _ => ?_
  refine wp_running hrun (.inl hrun) trivial fun _ hrun => wp_err (.inl hrun) fun _ => ?_
  refine wp_text (only_print _) (.inl hrun) fun _ => wp_err (.inl hrun) fun _ => ?_
  refine wp_running hrun (.inl hrun) trivial fun status hrun => ?_
  unfold err
  split
  · exact wp_goEnd (.inl hrun)
  · rfl

/-! ### Files -/

theorem erase_second {A : Type} [BEq A] [LawfulBEq A] (a b : A) (l : List A) :
    (a :: b :: l).erase b = a :: l := by
  by_cases h : a = b
  · rw [h, List.erase_cons_head]
  · rw [List.erase_cons_tail (by simpa using h), List.erase_cons_head]

theorem fileOpenLoop_spec (filename : List UInt16) (mode : UInt64) (handles : List UInt64)
    (hs : s.phase = .running) :
    (fileOpenLoop filename mode handles).run.wp protocol
      (Outcome (fun file s' => s' = s.setFiles (file :: s.files)) fun _ s => s.Open) s := by
  induction handles generalizing s with
  | nil => exact .inl hs
  | cons handle handles ih =>
    refine wp_running hs (.inl hs) trivial fun ⟨_, fs⟩ hrun =>
      wp_errReturn (.inl hrun) fun _ => ?_
    refine wp_running hrun (.inl hrun) trivial fun ⟨_, root⟩ hrun =>
      wp_errReturn (.inl hrun) fun hroot => ?_
    refine wp_running hrun (.inl hrun) trivial fun ⟨status, file⟩ hrun => ?_
    dsimp only
    split
    · -- the file is open: its volume is closed, and the file stays
      rename_i hfile
      refine wp_running hrun (.inl hrun) trivial fun _ hrun =>
        wp_errReturn (.inl hrun) fun _ => ?_
      show protocol.next _ _ _ = _
      simp [handedOut_of_ok hroot, handedOut_of_ok (eq_false_of_ne_true hfile), erase_second]
    · -- the volume is closed, and the next one is looked at
      rename_i hfile
      refine wp_running hrun (.inl hrun) trivial fun _ hrun =>
        wp_errReturn (.inl hrun) fun _ => ?_
      refine wp_of_eq ?_ (ih (s := s.touched) hs)
      simp [handedOut_of_ok hroot, handedOut_of_error (not_not.mp hfile)]

/-- `LocateHandleBuffer` leaves its buffer. -/
theorem fileOpen_spec (filename : List UInt16) (mode : UInt64) (hrun : s.phase = .running) :
    (fileOpen filename mode).run.wp protocol
      (Outcome (fun file s' => ∃ buffer, s' = (s.setPools (buffer :: s.pools)).setFiles
        (file :: s.files)) fun _ s => s.Open) s := by
  refine wp_running hrun (.inl hrun) trivial fun ⟨status, buffer, handles⟩ hrun =>
    wp_errReturn (.inl hrun) fun hok => ?_
  refine wp_mono (fileOpenLoop_spec filename mode handles hrun) ?_
  rintro (e | file) s' h
  · exact h
  · refine ⟨buffer, h.trans ?_⟩
    simp [handedOut_of_ok hok]

theorem toNat_pages (size : UInt64) : size.toNat < 4096 * (size / 0x1000 + 1).toNat := by
  have hlt := size.toNat_lt
  rw [UInt64.toNat_add, UInt64.toNat_div, show (0x1000 : UInt64).toNat = 4096 from rfl,
    show (1 : UInt64).toNat = 1 from rfl]
  omega

theorem fileRead_spec (file : UInt64) (hrun : s.phase = .running) :
    (fileRead file).run.wp protocol
      (Outcome (fun b s' => s' = (s.setPages ((b.addr, b.pages) :: s.pages)).setImage b)
        fun _ s => s.Open) s := by
  refine wp_running hrun (.inl hrun) trivial fun ⟨status, info⟩ hrun => ?_
  dsimp only
  split
  · exact wp_errReturn (.inl hrun) fun _ => trivial
  · refine wp_running hrun (.inl hrun) trivial fun ⟨_, finfo⟩ hrun =>
      wp_errReturn (.inl hrun) fun hinfo => ?_
    refine wp_running hrun (.inl hrun) trivial fun ⟨_, info⟩ hrun =>
      wp_errReturn (.inl hrun) fun _ => ?_
    refine wp_running hrun (.inl hrun) trivial fun ⟨_, addr⟩ hrun =>
      wp_errReturn (.inl hrun) fun hpages => ?_
    refine wp_running hrun ⟨hrun, info.fileSize / 0x1000 + 1, ?_, toNat_pages _⟩ trivial
      fun ⟨_, size, contents⟩ hrun => wp_errReturn (.inl hrun) fun _ => ?_
    · simp [handedOut_of_ok hpages]
    refine wp_running hrun ⟨hrun, ?_⟩ trivial fun _ hrun => ?_
    · simp [handedOut_of_ok hinfo]
    · show protocol.next _ _ _ = _
      simp [handedOut_of_ok hinfo, handedOut_of_ok hpages]

/-- Text in front of a `return`. -/
theorem refuse_spec (message : String) (result : EfiStatus) (ho : s.Open) :
    (refuse (A := B) folders message result).run.wp protocol (Outcome Q exitOpen) s :=
  wp_text (only_print _) ho fun _ => wp_err ho fun _ => trivial

/-! ### The folders and the files -/

theorem openFolders_spec (hrun : s.phase = .running) :
    openFolders.run.wp protocol
      (Outcome (fun f s' => ∃ buffer, s' = (s.setPools (buffer :: s.pools)).setFiles
        (f.2 :: f.1 :: s.files)) exitOpen) s := by
  refine wp_lift (wp_mono (fileOpen_spec _ _ hrun) ?_)
  rintro (⟨status, file⟩ | boot) s' h
  · exact wp_goEnd h
  · obtain ⟨buffer, rfl⟩ := h
    refine wp_text (only_print _) (.inl hrun) fun _ => ?_
    refine wp_running hrun (.inl hrun) trivial fun ⟨_, resource⟩ hrun =>
      wp_err (.inl hrun) fun hok => wp_text (only_print _) (.inl hrun) fun _ => ⟨buffer, ?_⟩
    simp [handedOut_of_ok hok]

/-- A file that is open is read and closed. -/
theorem readClose_spec (file : UInt64) {f : FileBuffer → ExceptT Exit Boot B}
    (hrun : s.phase = .running)
    (hf : ∀ b, (f b).run.wp protocol (Outcome Q exitOpen)
      (((s.setPages ((b.addr, b.pages) :: s.pages)).setImage b).setFiles (s.files.erase file))) :
    (do
      let b ← errOf folders (fileRead file)
      err folders (← fileClose file)
      f b : ExceptT Exit Boot B).run.wp protocol (Outcome Q exitOpen) s := by
  refine wp_seq (wp_errOf (fileRead_spec file hrun)) ?_
  rintro b s' rfl
  exact wp_running hrun (.inl hrun) trivial fun _ hrun => wp_err (.inl hrun) fun _ => hf b

/-- The image that was read stays noted. -/
theorem readConfig_spec (resource : UInt64) (hrun : s.phase = .running) :
    (readConfig folders resource).run.wp protocol
      (Outcome (fun _ s' => ∃ image, s' = s.setImage image) exitOpen) s := by
  refine wp_running hrun (.inl hrun) trivial fun ⟨_, file⟩ hrun =>
    wp_err (.inl hrun) fun hok => wp_text (only_print _) (.inl hrun) fun _ => ?_
  refine readClose_spec file hrun fun b => ?_
  refine wp_text (only_printlnChar _ _) (.inl hrun) fun _ => wp_err (.inl hrun) fun _ => ?_
  refine wp_running hrun ⟨hrun, List.mem_cons_self⟩ trivial fun status hrun => ?_
  unfold err
  split
  · exact wp_goEnd (.inl hrun)
  · refine ⟨b, ?_⟩
    show protocol.next _ _ _ = _
    simp [handedOut_of_ok hok]

theorem readFont_spec (resource : UInt64) (hrun : s.phase = .running) :
    (readFont folders resource).run.wp protocol
      (Outcome (fun _ s' => ∃ image, s' = s.setImage image) exitOpen) s := by
  refine wp_running hrun (.inl hrun) trivial fun ⟨_, file⟩ hrun =>
    wp_err (.inl hrun) fun hok => ?_
  refine readClose_spec file hrun fun b => ?_
  split
  · exact refuse_spec _ _ (.inl hrun)
  split
  · exact wp_text (only_print _) (.inl hrun) fun _ => trivial
  split
  · trivial
  split
  · exact refuse_spec _ _ (.inl hrun)
  · refine wp_running hrun ⟨hrun, List.mem_cons_self⟩ trivial fun _ hrun =>
      wp_err (.inl hrun) fun _ => wp_text (only_print _) (.inl hrun) fun _ => ⟨b, ?_⟩
    simp [handedOut_of_ok hok]

/-- The image is kept, with its pages. -/
theorem readKernel_spec (boot : UInt64) (hrun : s.phase = .running) :
    (readKernel folders boot).run.wp protocol
      (Outcome (fun b s' => s' = (s.setPages ((b.addr, b.pages) :: s.pages)).setImage b ∧
        (elfHeader b.contents).ok = true) exitOpen) s := by
  refine wp_running hrun (.inl hrun) trivial fun ⟨_, file⟩ hrun =>
    wp_err (.inl hrun) fun hok => ?_
  refine readClose_spec file hrun fun b => ?_
  dsimp only
  split
  · exact refuse_spec _ _ (.inl hrun)
  rename_i hmagic
  split
  · exact refuse_spec _ _ (.inl hrun)
  rename_i hclass
  split
  · exact refuse_spec _ _ (.inl hrun)
  rename_i hmachine
  refine wp_text (only_print _) (.inl hrun) fun _ => ⟨?_, ?_⟩
  · simp [handedOut_of_ok hok]
  · rw [Elf64Header.ok, not_not.mp hmagic, not_not.mp hclass, not_not.mp hmachine]
    rfl

/-! ### The graphics mode -/

theorem findGraphics_spec (hrun : s.phase = .running) :
    (findGraphics folders).run.wp protocol
      (Outcome (fun _ s' => ∃ buffer, s' = s.setPools (buffer :: s.pools)) exitOpen) s := by
  refine wp_running hrun (.inl hrun) trivial fun ⟨_, buffer, _⟩ hrun =>
    wp_err (.inl hrun) fun hok => ?_
  split
  · trivial
  · refine wp_running hrun (.inl hrun) trivial fun ⟨_, gop⟩ hrun => wp_err (.inl hrun) fun _ =>
      wp_text (only_print _) (.inl hrun) fun _ => ⟨buffer, ?_⟩
    simp [handedOut_of_ok hok]

/-- What stays while the modes are looked at, with the number of pools that come in beside
the lost ones. -/
structure Kept (s s' : BootState) (n : ℕ) : Prop where
  phase : s'.phase = s.phase
  files : s'.files = s.files
  pages : s'.pages = s.pages
  image : s'.image = s.image
  segments : s'.segments = s.segments
  wanted : ∀ i ∈ s.wanted, i ∈ s'.wanted
  pools : s'.pools.length + s.lostPools = s.pools.length + s'.lostPools + n

theorem Kept.refl (s : BootState) : Kept s s 0 :=
  ⟨rfl, rfl, rfl, rfl, rfl, fun _ h => h, rfl⟩

theorem Kept.trans {s' s'' : BootState} {n m : ℕ} (h : Kept s s' n) (h' : Kept s' s'' m) :
    Kept s s'' (n + m) where
  phase := h'.phase.trans h.phase
  files := h'.files.trans h.files
  pages := h'.pages.trans h.pages
  image := h'.image.trans h.image
  segments := h'.segments.trans h.segments
  wanted := fun i hi => h'.wanted i (h.wanted i hi)
  pools := by
    have hpools := h.pools
    have hpools' := h'.pools
    omega

theorem next_queryMode {gop size buffer : UInt64} {i : ℕ} {mode : VideoMode.ModeInformation}
    (hok : EfiStatus.isError status = false) :
    protocol.next s (.queryMode gop i) (status, size, buffer, mode) =
      { s.setPools (buffer :: s.pools) with
        wanted := if mode.Wanted then i :: s.wanted else s.wanted } := by
  have hsmall : status ≠ efiBufferTooSmall := by
    rintro rfl
    exact absurd hok (by decide)
  simp only [protocol, BootState.next, handedOut_of_ok hok, if_neg hsmall]
  rfl

theorem kept_queryMode {gop size buffer : UInt64} {i : ℕ} {mode : VideoMode.ModeInformation}
    (hok : EfiStatus.isError status = false) :
    Kept s (protocol.next s (.queryMode gop i) (status, size, buffer, mode)) 1 := by
  rw [next_queryMode hok]
  refine ⟨rfl, rfl, rfl, rfl, rfl, fun j hj => ?_, ?_⟩
  · show j ∈ if mode.Wanted then i :: s.wanted else s.wanted
    split
    · exact List.mem_cons_of_mem _ hj
    · exact hj
  · show (buffer :: s.pools).length + s.lostPools = s.pools.length + s.lostPools + 1
    rw [List.length_cons]
    omega

theorem next_queryMode_small {gop size buffer : UInt64} {i : ℕ}
    {mode : VideoMode.ModeInformation} :
    protocol.next s (.queryMode gop i) (efiBufferTooSmall, size, buffer, mode) =
      { s.touched with lostPools := s.lostPools + 1 } := by
  have herror : EfiStatus.isError efiBufferTooSmall = true := by decide
  simp [handedOut_of_error herror]

/-- The buffer is handed out, and a mode that is wanted is noted. -/
theorem queryMode_spec (gop : UInt64) (i : ℕ) (hrun : s.phase = .running) :
    (queryMode folders gop i).run.wp protocol
      (Outcome (fun r s' => Kept s s' 1 ∧ r.1 ∈ s'.pools ∧ (r.2.Wanted → i ∈ s'.wanted))
        exitOpen) s := by
  have hlast : ∀ {s' : BootState} {n : ℕ} {status : EfiStatus} {size buffer : UInt64}
      {mode : VideoMode.ModeInformation}, Kept s s' n → n = 0 →
      EfiStatus.isError status = false →
      Kept s (protocol.next s' (.queryMode gop i) (status, size, buffer, mode)) 1 ∧
        buffer ∈ (protocol.next s' (.queryMode gop i) (status, size, buffer, mode)).pools ∧
        (mode.Wanted →
          i ∈ (protocol.next s' (.queryMode gop i) (status, size, buffer, mode)).wanted) := by
    intro s' n status size buffer mode hkept hn hok
    subst hn
    refine ⟨hkept.trans (kept_queryMode hok), ?_, fun hwanted => ?_⟩
    · rw [next_queryMode hok]
      exact List.mem_cons_self
    · rw [next_queryMode hok]
      show i ∈ if mode.Wanted then i :: s'.wanted else s'.wanted
      rw [if_pos hwanted]
      exact List.mem_cons_self
  refine wp_running hrun (.inl hrun) trivial fun ⟨status, size, buffer, mode⟩ hrun => ?_
  dsimp only
  split
  · -- the buffer that is allocated now is lost
    rename_i hsmall
    subst hsmall
    rw [next_queryMode_small] at hrun ⊢
    refine wp_running hrun (.inl hrun) trivial fun ⟨_, pool⟩ hrun =>
      wp_err (.inl hrun) fun hpool => ?_
    refine wp_running hrun (.inl hrun) trivial fun ⟨_, _, _, _⟩ hrun =>
      wp_err (.inl hrun) fun hok => hlast ⟨rfl, rfl, rfl, rfl, rfl, fun _ hj => hj, ?_⟩ rfl hok
    simp [handedOut_of_ok hpool]
    omega
  · exact wp_err (.inl hrun) fun hok => hlast (Kept.refl s) rfl hok

/-- The number of a mode that is wanted has been noted, with its size. -/
def Found (noMode : UInt64) (s : BootState) (search : VideoMode.Search) : Prop :=
  search.res1280x720 = noMode ∨ (search.res1280x720.toNat ∈ s.wanted ∧
    search.graphicsMode.width = 0x500 ∧ search.graphicsMode.height = 0x320)

theorem Found.noteMode {noMode : UInt64} {s' : BootState} {search : VideoMode.Search} {i n : ℕ}
    {mode : VideoMode.ModeInformation} (h : Found noMode s search) (hkept : Kept s s' n)
    (hi : i < 2 ^ 32) (hwanted : mode.Wanted → i ∈ s'.wanted) :
    Found noMode s' (search.noteMode i mode) := by
  unfold VideoMode.Search.noteMode
  split
  · rename_i hwide
    split
    · rename_i hheight
      refine .inr ⟨?_, rfl, rfl⟩
      have hnat : (UInt64.ofNat i).toNat = i := UInt64.toNat_ofNat_of_lt' (hi.trans (by decide))
      show (UInt64.ofNat i).toNat ∈ s'.wanted
      rw [hnat]
      exact hwanted ⟨hwide, hheight⟩
    · exact h.imp_right fun h => ⟨hkept.wanted _ h.1, rfl, rfl⟩
  · exact h.imp_right fun h => ⟨hkept.wanted _ h.1, h.2⟩

theorem kept_freePool {s' : BootState} {buffer : UInt64} (h : Kept s s' 1)
    (hmem : buffer ∈ s'.pools) (status : EfiStatus) :
    Kept s (protocol.next s' (.freePool buffer) status) 0 where
  phase := h.phase
  files := h.files
  pages := h.pages
  image := h.image
  segments := h.segments
  wanted := h.wanted
  pools := by
    have hpools := h.pools
    have hlength := List.length_erase_of_mem hmem
    have hpos := List.length_pos_of_mem hmem
    show (s'.pools.erase buffer).length + s.lostPools = s.pools.length + s'.lostPools + 0
    omega

theorem searchModes_spec (gop noMode : UInt64) (n : ℕ) {i : ℕ} {search : VideoMode.Search}
    (hrun : s.phase = .running) (hi : i + n ≤ 2 ^ 32) (hfound : Found noMode s search) :
    (searchModes folders gop n i search).run.wp protocol
      (Outcome (fun search' s' => Kept s s' 0 ∧ Found noMode s' search') exitOpen) s := by
  induction n generalizing s i search with
  | zero => exact ⟨Kept.refl s, hfound⟩
  | succ n ih =>
    refine wp_seq (queryMode_spec gop i hrun) ?_
    rintro ⟨modeInfo, mode⟩ s' ⟨hkept, hmem, hwanted⟩
    have hrun' : s'.phase = .running := hkept.phase.trans hrun
    have hnoted := hfound.noteMode hkept (show i < 2 ^ 32 by omega) hwanted
    have hrest : (do
        err folders (← firmware (.freePool modeInfo))
        searchModes folders gop n (i + 1) (search.noteMode i mode) :
          ExceptT Exit Boot VideoMode.Search).run.wp protocol
        (Outcome (fun search' s'' => Kept s s'' 0 ∧ Found noMode s'' search') exitOpen) s' := by
      refine wp_running hrun' ⟨hrun', hmem⟩ trivial fun status hrun =>
        wp_err (.inl hrun) fun _ => ?_
      have hfreed := kept_freePool hkept hmem status
      refine wp_mono (ih hrun (by omega) hnoted) ?_
      rintro (e | search') s'' h
      · exact h
      · exact ⟨hfreed.trans h.1, h.2⟩
    dsimp only
    split
    · exact wp_text (only_printMode i mode) (.inl hrun') fun _ => hrest
    · exact hrest

/-- The mode that is set is one that is wanted, and the framebuffer is its own. -/
theorem setGraphics_spec (gop entryAddr : UInt64) (hrun : s.phase = .running) :
    (setGraphics folders gop entryAddr).run.wp protocol
      (Outcome (fun r s' => Kept s s' 0 ∧ s'.modeSet = true ∧ s'.gopMode = some r.2 ∧
        r.1.width = 0x500 ∧ r.1.height = 0x320) exitOpen) s := by
  refine wp_running hrun (.inl hrun) trivial fun gopMode hrun => ?_
  refine wp_seq (searchModes_spec gop _ _ hrun ?_ (.inl rfl)) ?_
  · rw [Nat.zero_add]
    exact gopMode.maxMode.toNat_lt.le
  rintro search s' ⟨hkept, hfound⟩
  have hrun' : s'.phase = .running := hkept.phase.trans hrun
  -- only a mode that was found goes further
  split
  · exact wp_text (only_print _) (.inl hrun') fun _ => trivial
  · rename_i hmode
    obtain ⟨hwanted, hwidth, hheight⟩ := hfound.resolve_left hmode
    refine wp_running hrun' ⟨hrun', hwanted⟩ trivial fun _ hrun => ?_
    refine wp_running hrun (.inl hrun) trivial fun _ hrun => wp_err (.inl hrun) fun _ => ?_
    refine wp_running hrun (.inl hrun) trivial fun _ hrun => wp_err (.inl hrun) fun _ =>
      wp_text (only_print _) (.inl hrun) fun _ => ?_
    refine wp_running hrun (.inl hrun) trivial fun gopMode hrun =>
      wp_text (only_printHex64 _ _) (.inl hrun) fun _ => wp_err (.inl hrun) fun _ =>
      wp_text (only_print _) (.inl hrun) fun _ =>
      wp_text (only_printHex64 _ _) (.inl hrun) fun _ => wp_err (.inl hrun) fun _ =>
      wp_text (only_print _) (.inl hrun) fun _ => ?_
    refine wp_running hrun (.inl hrun) trivial fun _ hrun => wp_err (.inl hrun) fun _ => ?_
    refine ⟨⟨?_, ?_, ?_, ?_, ?_, ?_, ?_⟩, ?_, ?_, hwidth, hheight⟩
    · simpa using hkept.phase
    · simpa using hkept.files
    · simpa using hkept.pages
    · simpa using hkept.image
    · simpa using hkept.segments
    · simpa using hkept.wanted
    · simpa using hkept.pools
    · simp
    · simp

/-! ### The end of the boot services -/

/-- What has to be there when the boot services are left. -/
structure Ready (s : BootState) (kernel : FileBuffer) : Prop where
  running : s.phase = .running
  image : s.image = some kernel
  pages : s.pages = [(kernel.addr, kernel.pages)]
  files : s.files.length = 2
  pools : s.pools.length = s.lostPools + 2

theorem exitBootServices_spec {kernel : FileBuffer} (h : Ready s kernel) :
    (exitBootServices folders).run.wp protocol
      (Outcome (fun m s' => s' = { s with phase := .exited, memoryMap := some m } ∧
        m.descSize ≠ 0) exitOpen) s := by
  refine wp_running h.running (.inl h.running) trivial fun ⟨status, m⟩ hrun => ?_
  dsimp only
  have hrest : EfiStatus.isError status = false →
      (if m.descSize = 0 then (Prog.stop : Boot MemoryMapInfo)
        else do
          err folders (← firmware (.exitBootServices m.mapKey))
          return m : ExceptT Exit Boot MemoryMapInfo).run.wp protocol
        (Outcome (fun m s' => s' = { s with phase := .exited, memoryMap := some m } ∧
          m.descSize ≠ 0) exitOpen) (protocol.next s .getMemoryMap (status, m)) := by
    intro hok
    split
    · trivial
    · rename_i hsize
      refine wp_call ⟨hrun, ⟨m, by simp [hok], rfl⟩, ⟨kernel, h.image, h.pages⟩, h.files,
        h.pools⟩ fun status => ?_
      refine wp_err_of (fun herror => .inr (by simp [herror])) fun hexit => ⟨?_, hsize⟩
      simp [hok, hexit]
  split
  · exact wp_text (only_print _) (.inl hrun) fun _ => wp_err (.inl hrun) fun _ =>
      wp_err (.inl hrun) hrest
  · rename_i hstatus
    rw [not_not.mp hstatus] at hrest ⊢
    exact hrest (by decide)

/-! ### The kernel -/

theorem mapSegments_spec (image : FileBuffer) (segments : List Segment) (table : LoaderTable)
    (hmapped : s.phase = .mapped) (himage : s.image = some image)
    (hsegments : s.segments ++ segments = BootState.imageSegments image) :
    (mapSegments segments table).run.wp protocol
      (Outcome (fun table' s' =>
        s' = { s with segments := BootState.imageSegments image } ∧
          table' = segments.foldl noteSegment table) exitOpen) s := by
  induction segments generalizing s table with
  | nil =>
    rw [List.append_nil] at hsegments
    refine ⟨?_, rfl⟩
    rw [← hsegments]
  | cons g segments ih =>
    have hnext : s.segments ++ [g] ++ segments = BootState.imageSegments image := by
      rw [List.append_assoc]
      exact hsegments
    refine wp_call ⟨hmapped, image, himage, segments, hnext⟩ fun status => ?_
    split
    · rename_i herror
      exact wp_call ⟨hmapped, herror⟩ fun _ => trivial
    · exact ih (s := { s with segments := s.segments ++ [g] }) _ hmapped himage hnext

/-- The two fields that the rounds set, as in `KernelLoad.mapSegment`. -/
theorem foldl_noteSegment (segments : List Segment) (table : LoaderTable) (t : KernelLoad)
    (hstart : table.kernelStartPointer = t.kernelStartPointer)
    (hcount : table.kernelPageCount = t.kernelPageCount) :
    segments.foldl noteSegment table =
      { table with
        kernelStartPointer := (segments.foldl KernelLoad.mapSegment t).kernelStartPointer
        kernelPageCount := (segments.foldl KernelLoad.mapSegment t).kernelPageCount } := by
  induction segments generalizing table t with
  | nil => rw [List.foldl_nil, List.foldl_nil, ← hstart, ← hcount]
  | cons g segments ih =>
    refine ih (noteSegment table g) (t.mapSegment g) ?_ ?_
    · rw [noteSegment, KernelLoad.mapSegment, hstart]
    · rw [noteSegment, KernelLoad.mapSegment, hcount]

theorem foldl_noteSegment_image (image : FileBuffer) (table : LoaderTable)
    (hstart : table.kernelStartPointer = 0) (hcount : table.kernelPageCount = 0) :
    (BootState.imageSegments image).foldl noteSegment table =
      { table with
        kernelStartPointer := firstVaddr (programTableEntries image.contents)
        kernelPageCount := firstPages image.size (programTableEntries image.contents) } := by
  -- the tables have no part in the two fields
  have hload := foldl_noteSegment (BootState.imageSegments image) table
    ⟨⟨fun _ => 0, 0, 0, 0, 0⟩, 0, 0⟩ hstart hcount
  rw [hload, ← loadKernel_start ⟨fun _ => 0, 0, 0, 0, 0⟩ image.addr image.size,
    ← loadKernel_count ⟨fun _ => 0, 0, 0, 0, 0⟩ image.addr]
  rfl

theorem launch_spec {kernel : FileBuffer} {m : MemoryMapInfo}
    {graphicsMode : VideoMode.GraphicsMode} {gopMode : GopMode} (hexited : s.phase = .exited)
    (himage : s.image = some kernel) (helf : (elfHeader kernel.contents).ok = true)
    (hsegments : s.segments = []) (hmap : s.memoryMap = some m) (hsize : m.descSize ≠ 0)
    (hset : s.modeSet = true) (hgop : s.gopMode = some gopMode)
    (hwidth : graphicsMode.width = 0x500) (hheight : graphicsMode.height = 0x320) :
    (launch folders kernel m graphicsMode gopMode).run.wp protocol
      (Outcome (fun _ _ => True) exitOpen) s := by
  refine wp_call ⟨hexited, rfl⟩ fun ⟨status, mappingBase⟩ =>
    wp_err_of (fun herror => .inr (by simp [herror])) fun hok => ?_
  refine wp_call (by simp [BootState.allows, hok]) fun ⟨pml4Pointer, usedPageCount⟩ => ?_
  refine wp_seq (mapSegments_spec kernel _ _ (by simp [hok]) (by simpa using himage) ?_) ?_
  · simp [hsegments, BootState.imageSegments]
  rintro table s' ⟨rfl, rfl⟩
  refine wp_call ⟨by simp [hok], kernel, by simpa using himage, helf, rfl, rfl, ?_⟩
    fun _ => trivial
  have htable := foldl_noteSegment_image kernel
  unfold BootState.imageSegments at htable
  rw [htable _ rfl rfl]
  exact {
    memoryMap := ⟨m, by simpa using hmap, hsize, rfl, rfl⟩
    mappingBase := by simp
    tables := by simp
    width := hwidth
    height := hheight
    framebuffer := ⟨by simpa using hset, gopMode, by simpa using hgop, rfl, rfl⟩
    start := rfl
    count := rfl }

/-! ### The whole program -/

theorem efiMainBody_spec :
    efiMainBody.run.wp protocol (Outcome (fun _ _ => True) exitOpen) BootState.start := by
  refine wp_seq (setUp_spec rfl) ?_
  rintro _ _ rfl
  refine wp_seq (openFolders_spec rfl) ?_
  rintro ⟨boot, resource⟩ _ ⟨handles, rfl⟩
  refine wp_seq (readConfig_spec resource rfl) ?_
  rintro _ _ ⟨config, rfl⟩
  refine wp_seq (readFont_spec resource rfl) ?_
  rintro _ _ ⟨font, rfl⟩
  refine wp_seq (readKernel_spec boot rfl) ?_
  rintro kernel _ ⟨rfl, helf⟩
  refine wp_seq (findGraphics_spec rfl) ?_
  rintro gop _ ⟨gopHandles, rfl⟩
  refine wp_seq (setGraphics_spec gop _ rfl) ?_
  rintro ⟨graphicsMode, gopMode⟩ s ⟨hkept, hset, hgop, hwidth, hheight⟩
  have hready : Ready s kernel := {
    running := hkept.phase
    image := hkept.image
    pages := hkept.pages
    files := congrArg List.length hkept.files
    pools := by
      have hpools : s.pools.length + 0 = 2 + s.lostPools + 0 := hkept.pools
      omega }
  refine wp_seq (exitBootServices_spec hready) ?_
  rintro m _ ⟨rfl, hsize⟩
  exact launch_spec rfl hready.image helf hkept.segments rfl hsize hset hgop hwidth hheight

theorem waitForKey_spec (fuel : ℕ) (ho : s.Open) :
    (waitForKey fuel).wp protocol (fun _ s' => s'.Open) s := by
  induction fuel generalizing s with
  | zero => trivial
  | succ fuel ih =>
    refine wp_bind.mpr ⟨ho, fun (status : EfiStatus) => ?_⟩
    show (if status = efiNotReady then waitForKey fuel else pure status).wp _ _ _
    split
    · exact ih ho
    · exact ho

theorem closeFolder_spec (file : Option UInt64) (ho : s.Open) :
    (closeFolder file).wp protocol (fun _ s' => s'.Open) s := by
  cases file with
  | none => trivial
  | some file => exact ⟨ho, fun _ => ho⟩

theorem endOnce_spec (fuel : ℕ) (ho : s.Open) :
    (endOnce folders fuel).run.wp protocol
      (Outcome (fun _ _ => True) fun _ s' => s'.Open) s := by
  refine wp_lift (wp_mono (closeFolder_spec folders.boot ho) fun _ s ho => ?_)
  refine wp_errReturn ho fun _ => wp_lift (wp_mono (closeFolder_spec folders.resource ho)
    fun _ s ho => ?_)
  refine wp_errReturn ho fun _ => wp_text (only_print _) ho fun _ => wp_errReturn ho fun _ => ?_
  refine wp_lift (wp_mono (waitForKey_spec fuel ho) fun status s ho => ?_)
  unfold errReturn
  split
  · exact ho
  · trivial

theorem efiEnd_spec (fuel : ℕ) (ho : s.Open) :
    (efiEnd folders fuel).wp protocol (fun _ _ => True) s := by
  induction fuel generalizing s with
  | zero => trivial
  | succ fuel ih =>
    refine wp_bind.mpr (wp_mono (endOnce_spec fuel ho) ?_)
    rintro (status | _) s' h
    · exact wp_bind.mpr ((only_printError status).wp (isText_spec h) fun _ => ih h)
    · trivial

theorem efiMain_spec (fuel : ℕ) :
    (efiMain fuel).wp protocol (fun _ _ => True) BootState.start := by
  refine wp_bind.mpr (wp_mono efiMainBody_spec ?_)
  rintro ((folders | status) | _) s h
  · exact efiEnd_spec fuel h
  · trivial
  · trivial

end

/-- Every run keeps the protocol. -/
theorem efiMain_accepts {fuel : ℕ} {es : List ((c : BootCall) × Answer c)}
    {o : Option EfiStatus} (h : Run (efiMain fuel) es o) : protocol.Accepts BootState.start es :=
  h.accepts (efiMain_spec fuel)

/-- A kernel of one segment at 0x100000, which is entered at its first byte. -/
def smallKernel : ℕ → UInt8
  | 0 => 0x7F
  | 1 => 0x45
  | 2 => 0x4c
  | 3 => 0x46
  | 4 => 0x02
  | 18 => 0x3E
  | 26 => 0x10
  | 32 => 64
  | 56 => 1
  | 64 => 1
  | 82 => 0x10
  | _ => 0

/-- An empty font. -/
def smallFont : ℕ → UInt8
  | 0 => 0x72
  | 1 => 0xb5
  | 2 => 0x4a
  | 3 => 0x86
  | _ => 0

/-- A firmware with one graphics mode that hands a file out under the length of its name. -/
def smallFirmware : (c : BootCall) → Answer c
  | .locateHandleBuffer _ => (efiSuccess, 0x10, [0x11, 0x12])
  | .handleProtocol handle _ => (efiSuccess, handle)
  | .openVolume fs => (efiSuccess, fs)
  | .openFile _ filename _ => (efiSuccess, UInt64.ofNat filename.length)
  | .getInfo _ buffer =>
    if buffer = 0 then (efiBufferTooSmall, ⟨80, 0⟩) else (efiSuccess, ⟨80, 120⟩)
  | .readFile file size _ =>
    (efiSuccess, size, if file = 17 then smallKernel else if file = 10 then smallFont else 0)
  | .allocatePool _ => (efiSuccess, 0x20)
  | .allocatePages _ => (efiSuccess, 0x3000)
  | .queryMode _ _ => (efiSuccess, 36, 0x21, ⟨0x500, 0x320, 0x500⟩)
  | .graphicsMode _ => ⟨1, 0x80000000, 0x3E8000⟩
  | .getMemoryMap => (efiSuccess, ⟨480, 7, 48⟩)
  | .initVirtualMapping _ => (efiSuccess, 0x200000)
  | .getMappingPointersAndCount => (0x200000, 5)
  | .reportMappingError _ => ()
  | .kmain _ _ => (0 : UInt64)
  | .setWatchdogTimer | .setTextMode _ | .clearScreen | .outputString _ | .resetInput
  | .readKeyStroke | .closeFile _ | .freePool _ | .freePages _ _ | .setGraphicsMode _ _
  | .exitBootServices _ | .mapPages _ => efiSuccess

/-- A run that comes back from the kernel. -/
theorem efiMain_accepts_smallFirmware :
    protocol.Accepts BootState.start ((efiMain 0).runWith smallFirmware).1 ∧
      ((efiMain 0).runWith smallFirmware).2 = some efiSuccess :=
  ⟨efiMain_accepts (Run.runWith smallFirmware (efiMain 0)), rfl⟩

/-! ### The calls up to the kernel -/

/-- The boot services, and what is read of their tables. -/
def IsService : BootCall → Prop
  | .exitBootServices _ | .initVirtualMapping _ | .getMappingPointersAndCount | .mapPages _
  | .reportMappingError _ | .kmain _ _ => False
  | _ => True

/-- The calls that use the new mapping. -/
def IsMapping : BootCall → Prop
  | .getMappingPointersAndCount | .mapPages _ => True
  | _ => False

/-- The segment that a call maps. -/
def mappedSegment (e : (c : BootCall) × Answer c) : Option Segment :=
  match e.1 with
  | .mapPages g => some g
  | _ => none

section

variable {s : BootState} {c : BootCall} {entry : UInt64} {table : LoaderTable} {r : UInt64}
  {pre post es : List ((c : BootCall) × Answer c)}

theorem IsService.keepsPhase (hc : IsService c) : KeepsPhase c := by
  cases c <;> trivial

theorem IsMapping.keepsPhase (hc : IsMapping c) : KeepsPhase c := by
  cases c <;> trivial

/-- How far a run has come when a call is allowed. -/
theorem phase_of_allows (h : s.allows c) :
    IsService c ∧ s.Open ∨ (∃ key, c = .exitBootServices key) ∧ s.phase = .running ∨
      c = .initVirtualMapping .mapAll ∧ s.phase = .exited ∨
      (IsMapping c ∨ ∀ r, (protocol.next s c r).phase = .left) ∧ s.phase = .mapped := by
  cases c with
  | readFile | freePool | freePages | setGraphicsMode => exact .inl ⟨trivial, .inl h.1⟩
  | exitBootServices key => exact .inr (.inl ⟨⟨key, rfl⟩, h.1⟩)
  | initVirtualMapping mappingType =>
    obtain ⟨hexited, rfl⟩ := h
    exact .inr (.inr (.inl ⟨rfl, hexited⟩))
  | getMappingPointersAndCount => exact .inr (.inr (.inr ⟨.inl trivial, h⟩))
  | mapPages => exact .inr (.inr (.inr ⟨.inl trivial, h.1⟩))
  | reportMappingError | kmain => exact .inr (.inr (.inr ⟨.inr fun _ => rfl, h.1⟩))
  | _ => exact .inl ⟨trivial, h⟩

theorem accepts_left (hs : s.phase = .left) (h : protocol.Accepts s es) : es = [] := by
  cases es with
  | nil => rfl
  | cons e es =>
    rcases phase_of_allows h.1 with ⟨-, ho⟩ | ⟨-, hp⟩ | ⟨-, hp⟩ | ⟨-, hp⟩
    · simp [BootState.Open, hs] at ho
    all_goals simp [hs] at hp

theorem kernel_notMem_of_failed (hs : s.phase = .failed) (h : protocol.Accepts s es) :
    (⟨.kmain entry table, r⟩ : (c : BootCall) × Answer c) ∉ es := by
  induction es generalizing s with
  | nil => exact List.not_mem_nil
  | cons e es ih =>
    obtain ⟨c, r⟩ := e
    have hservice : IsService c := by
      rcases phase_of_allows h.1 with ⟨hc, -⟩ | ⟨-, hp⟩ | ⟨-, hp⟩ | ⟨-, hp⟩
      · exact hc
      all_goals simp [hs] at hp
    intro he
    rcases List.mem_cons.mp he with heq | he
    · obtain ⟨rfl, -⟩ := Sigma.mk.inj heq
      exact hservice
    · exact ih ((phase_next hservice.keepsPhase r).trans hs) h.2 he

theorem up_to_kernel_of_mapped (hs : s.phase = .mapped)
    (h : protocol.Accepts s (pre ++ ⟨.kmain entry table, r⟩ :: post)) :
    (∀ e ∈ pre, IsMapping e.1) ∧ post = [] ∧ ∃ image, s.image = some image ∧
      s.segments ++ pre.filterMap mappedSegment = BootState.imageSegments image ∧
      entry = entryAddr image.contents := by
  induction pre generalizing s with
  | nil =>
    obtain ⟨-, image, himage, -, hsegments, hentry, -⟩ := h.1
    exact ⟨fun _ he => absurd he List.not_mem_nil, accepts_left rfl h.2, image, himage,
      (List.append_nil _).trans hsegments, hentry⟩
  | cons e pre ih =>
    obtain ⟨c, r'⟩ := e
    rcases phase_of_allows h.1 with ⟨-, ho⟩ | ⟨-, hp⟩ | ⟨-, hp⟩ | ⟨hmapping | hleft, -⟩
    · simp [BootState.Open, hs] at ho
    · simp [hs] at hp
    · simp [hs] at hp
    · obtain ⟨hpre, hpost, image, himage, hsegments, hentry⟩ :=
        ih ((phase_next hmapping.keepsPhase r').trans hs) h.2
      have hnext : (protocol.next s c r').image = s.image ∧ (protocol.next s c r').segments =
          s.segments ++ [⟨c, r'⟩].filterMap mappedSegment := by
        cases c with
        | getMappingPointersAndCount => exact ⟨rfl, (List.append_nil _).symm⟩
        | mapPages g => exact ⟨rfl, rfl⟩
        | _ => exact hmapping.elim
      refine ⟨fun e he => ?_, hpost, image, hnext.1 ▸ himage, ?_, hentry⟩
      · rcases List.mem_cons.mp he with rfl | he
        · exact hmapping
        · exact hpre e he
      · rw [← hsegments, hnext.2, List.append_assoc, ← List.filterMap_append]
        rfl
    · -- nothing is called behind the other calls that are allowed
      exact absurd (accepts_left (hleft r') h.2)
        (List.append_ne_nil_of_right_ne_nil _ (List.cons_ne_nil _ _))

theorem up_to_kernel_of_exited (hs : s.phase = .exited)
    (h : protocol.Accepts s (pre ++ ⟨.kmain entry table, r⟩ :: post)) :
    ∃ (status : EfiStatus) (base : UInt64) (mid : List ((c : BootCall) × Answer c)),
      pre = ⟨.initVirtualMapping .mapAll, (status, base)⟩ :: mid ∧
        EfiStatus.isError status = false ∧ (∀ e ∈ mid, IsMapping e.1) ∧ post = [] ∧
        ∃ image, s.image = some image ∧
          s.segments ++ mid.filterMap mappedSegment = BootState.imageSegments image ∧
          entry = entryAddr image.contents := by
  cases pre with
  | nil =>
    have hp : s.phase = .mapped := h.1.1
    simp [hs] at hp
  | cons e pre =>
    obtain ⟨c', r'⟩ := e
    rcases phase_of_allows h.1 with ⟨-, ho⟩ | ⟨-, hp⟩ | ⟨heq, -⟩ | ⟨-, hp⟩
    · simp [BootState.Open, hs] at ho
    · simp [hs] at hp
    · subst heq
      obtain ⟨status, base⟩ := r'
      by_cases herror : EfiStatus.isError status = true
      · exact absurd (List.mem_append_right _ List.mem_cons_self)
          (kernel_notMem_of_failed (if_pos herror) h.2)
      · have hmapped : (protocol.next s (.initVirtualMapping .mapAll) (status, base)).phase =
            .mapped := if_neg herror
        have hlast := up_to_kernel_of_mapped hmapped h.2
        exact ⟨status, base, pre, rfl, eq_false_of_ne_true herror, hlast⟩
    · simp [hs] at hp

theorem up_to_kernel_of_running (hs : s.phase = .running)
    (h : protocol.Accepts s (pre ++ ⟨.kmain entry table, r⟩ :: post)) :
    ∃ (before : List ((c : BootCall) × Answer c)) (key : UInt64) (status : EfiStatus)
      (rest : List ((c : BootCall) × Answer c)) (s' : BootState),
      pre = before ++ ⟨.exitBootServices key, status⟩ :: rest ∧
        (∀ e ∈ before, IsService e.1) ∧ EfiStatus.isError status = false ∧
        s'.phase = .exited ∧ s'.image = (protocol.after s before).image ∧
        s'.segments = s.segments ∧
        protocol.Accepts s' (rest ++ ⟨.kmain entry table, r⟩ :: post) := by
  induction pre generalizing s with
  | nil =>
    have hp : s.phase = .mapped := h.1.1
    simp [hs] at hp
  -- up to the exit every call is a service, and one that fails ends the run
  | cons e pre ih =>
    obtain ⟨c', r'⟩ := e
    rcases phase_of_allows h.1 with ⟨hservice, -⟩ | ⟨⟨key, heq⟩, -⟩ | ⟨-, hp⟩ | ⟨-, hp⟩
    · obtain ⟨before, key, status, rest, s', rfl, hbefore, hstatus, hexited, himage, hsegments,
        hrest⟩ := ih ((phase_next hservice.keepsPhase r').trans hs) h.2
      refine ⟨⟨c', r'⟩ :: before, key, status, rest, s', rfl, fun e he => ?_, hstatus, hexited,
        himage, hsegments.trans ?_, hrest⟩
      · rcases List.mem_cons.mp he with rfl | he
        · exact hservice
        · exact hbefore e he
      · cases c' with
        | mapPages => exact hservice.elim
        | _ => rfl
    · subst heq
      by_cases herror : EfiStatus.isError r' = true
      · exact absurd (List.mem_append_right _ List.mem_cons_self)
          (kernel_notMem_of_failed (if_pos herror) h.2)
      · exact ⟨[], key, r', pre, protocol.next s (.exitBootServices key) r', rfl,
          fun _ he => absurd he List.not_mem_nil, eq_false_of_ne_true herror, if_neg herror, rfl,
          rfl, h.2⟩
    · simp [hs] at hp
    · simp [hs] at hp

end

/-- A run that enters the kernel has left the boot services and moved the tables before, both
once and without an error.  It calls no service behind that, and nothing behind the kernel; it
maps the segments of the image that it read last, in the order of their headers, and enters the
kernel at the address in its header. -/
theorem efiMain_up_to_kernel {fuel : ℕ} {o : Option EfiStatus} {entry : UInt64}
    {table : LoaderTable} {r : UInt64} {pre post : List ((c : BootCall) × Answer c)}
    (h : Run (efiMain fuel) (pre ++ ⟨.kmain entry table, r⟩ :: post) o) :
    ∃ (before mid : List ((c : BootCall) × Answer c)) (key base : UInt64)
      (status status' : EfiStatus) (image : FileBuffer),
      pre = before ++ ⟨.exitBootServices key, status⟩ ::
        ⟨.initVirtualMapping .mapAll, (status', base)⟩ :: mid ∧
      EfiStatus.isError status = false ∧ EfiStatus.isError status' = false ∧
      (∀ e ∈ before, IsService e.1) ∧ (∀ e ∈ mid, IsMapping e.1) ∧ post = [] ∧
      (protocol.after BootState.start before).image = some image ∧
      mid.filterMap mappedSegment =
        kernelSegments image.addr image.size (programTableEntries image.contents) ∧
      entry = entryAddr image.contents := by
  obtain ⟨before, key, status, rest, s', rfl, hbefore, hstatus, hexited, himage, hsegments,
    hrest⟩ := up_to_kernel_of_running rfl (h.accepts (efiMain_spec fuel))
  obtain ⟨status', base, mid, rfl, hstatus', hmid, hpost, image, himage', hmapped, hentry⟩ :=
    up_to_kernel_of_exited hexited hrest
  rw [hsegments] at hmapped
  exact ⟨before, mid, key, base, status, status', image, rfl, hstatus, hstatus', hbefore, hmid,
    hpost, himage.symm.trans himage', hmapped, hentry⟩

/-- The boot table that the small kernel gets. -/
def smallTable : LoaderTable where
  memDescSize := 48
  memDescCount := 10
  mappingBase := 0x200000
  kernelStartPointer := 0x100000
  kernelPageCount := 1
  pml4Pointer := 0x200000
  usedMappingPageCount := 5
  graphicsMode := ⟨0x500, 0x320, 0x500⟩
  framebufferBase := 0x80000000
  framebufferSize := 0x3E8000

theorem efiMain_up_to_kernel_smallFirmware :
    ∃ (pre before mid : List ((c : BootCall) × Answer c)) (key base : UInt64)
      (status status' : EfiStatus) (image : FileBuffer),
      ((efiMain 0).runWith smallFirmware).1 =
        pre ++ ⟨.kmain 0x100000 smallTable, (0 : UInt64)⟩ :: [] ∧
      pre = before ++ ⟨.exitBootServices key, status⟩ ::
        ⟨.initVirtualMapping .mapAll, (status', base)⟩ :: mid ∧
      (protocol.after BootState.start before).image = some image ∧
      mid.filterMap mappedSegment =
        kernelSegments image.addr image.size (programTableEntries image.contents) := by
  have hrun : ((efiMain 0).runWith smallFirmware).1 =
      ((efiMain 0).runWith smallFirmware).1.dropLast ++
        ⟨.kmain 0x100000 smallTable, (0 : UInt64)⟩ :: [] := rfl
  have h := Run.runWith smallFirmware (efiMain 0)
  rw [hrun] at h
  obtain ⟨before, mid, key, base, status, status', image, hpre, -, -, -, -, -, himage, hmid, -⟩ :=
    efiMain_up_to_kernel h
  exact ⟨_, before, mid, key, base, status, status', image, hrun, hpre, himage, hmid⟩

end BootProgram

end Betelgeuse
