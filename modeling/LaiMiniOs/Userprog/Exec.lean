import LaiMiniOs.Fs.Reading
import LaiMiniOs.Userprog.Fork

/-! Loading a program, from `userprog/exec.c`.

`segment_load` gets the pages of a segment and reads the file into them. What it reads goes to the
addresses in the program header, so the model keeps a record of the addresses written. A write to a
page of the kernel changes the bytes of its frame; what the kernel keeps there is not read from them,
so behind such a write the record is all that counts.
-/

set_option autoImplicit false

namespace LaiMiniOs
open Foundation Prog Function

structure Elf32Ehdr where
  eIdent : List Byte
  eType : BitVec 16
  eMachine : BitVec 16
  eVersion : Word
  eEntry : Word
  ePhoff : Word
  ePhentsize : BitVec 16
  ePhnum : BitVec 16

structure Elf32Phdr where
  pType : Word
  pOffset : Word
  pVaddr : Word
  pFilesz : Word
  pMemsz : Word

def halfAt (m : Memory) (a : Nat) : BitVec 16 := m (a + 1) ++ m a

def Elf32Ehdr.ofBytes (bytes : List Byte) : Elf32Ehdr :=
  let m := bufferOf bytes
  ⟨bytes.take 16, halfAt m 16, halfAt m 18, m.word 20, m.word 24, m.word 28, halfAt m 42, halfAt m 44⟩

def Elf32Phdr.ofBytes (bytes : List Byte) : Elf32Phdr :=
  let m := bufferOf bytes
  ⟨m.word 0, m.word 4, m.word 8, m.word 16, m.word 20⟩

def ptLoad : Word := 1

/-- The checks of `load` on the ELF header: `"\177ELF\1\1\1"`, an executable for the 80386. -/
def Elf32Ehdr.Valid (header : Elf32Ehdr) : Prop :=
  header.eIdent.take 7 = [0x7f, 0x45, 0x4c, 0x46, 1, 1, 1] ∧ header.eType = 2 ∧ header.eMachine = 3 ∧
    header.eVersion = 1 ∧
    header.ePhnum.toNat ≤ 1024 ∧ header.ePhentsize = 32

instance (header : Elf32Ehdr) : Decidable header.Valid := inferInstanceAs (Decidable (_ ∧ _))

structure Loading where
  spaces : Spaces
  /-- The addresses that `segment_load` has written, the last one first. -/
  written : List Nat

variable {vaddr offset : Word} {byte : Byte} {b : Bool} {t : Loading}

abbrev LoadingM := Prog Loading

def spacesPart : Lens Loading Spaces :=
  ⟨Loading.spaces, fun t s => { s with spaces := t }, fun _ _ => rfl, fun _ => rfl, fun _ _ _ => rfl⟩

def onSpaces {A : Type} (x : SpacesM A) : LoadingM A := x.zoom spacesPart

instance (s : Paging) (page : Nat) : Decidable (s.Present page) := inferInstanceAs (Decidable (_ ∧ _))

/-- The byte of the file that goes to an address; an access to a page that is not mapped faults. -/
def storeByte (addr : Word) (byte : Byte) : LoadingM Unit := do
  let s ← get
  let page := addr.toNat / pgSize
  Prog.require (s.spaces.paging.Present page) .undefined
  let frame := (s.spaces.paging.pte page).frame
  set { spaces := s.spaces.setFrame frame (update (s.spaces.frames frame) (addr.toNat % pgSize) byte), written :=
    addr.toNat :: s.written : Loading }

def storeBytes : Word → List Byte → LoadingM Unit
  | _, [] => return
  | vaddr, byte :: rest => do
    storeByte vaddr byte
    storeBytes (vaddr + 1) rest

/-- The number of pages of a segment, in the arithmetic of `uint32_t`. -/
def occupyPages (filesz vaddr : Word) : Word :=
  let sizeInFirstPage := 4096 - (vaddr &&& 0xfff)
  if sizeInFirstPage < filesz then (filesz - sizeInFirstPage + 4095) / 4096 + 1 else 1

/-- The loop of `segment_load` that gets the pages; the page number wraps around with the address. -/
def segmentPages : Nat → Nat → LoadingM Bool
  | 0, _ => return true
  | cnt + 1, page => do
    if (← get).spaces.paging.Present page then segmentPages cnt ((page + 1) % 0x100000)
    else
      match ← onSpaces (onPaging (getAPage .user (page * pgSize))) with
      | none => return false
      | some _ => segmentPages cnt ((page + 1) % 0x100000)

/-- `segment_load`: the results of `sys_lseek` and `sys_read` are not looked at. -/
def segmentLoad (fd : Int) (offset filesz vaddr : Word) : LoadingM Bool := do
  if ← segmentPages (occupyPages filesz vaddr).toNat (vaddr.toNat / pgSize) then
    let _ ← onSpaces (onFs (sysLseek fd offset .seekSet))
    let bytes ← onSpaces (onFs (sysRead fd filesz))
    storeBytes vaddr (bytes.getD [])
    return true
  else return false

/-- The loop of `load` over the program headers; `false` stands for `goto done` with `-1`. -/
def loadHeaders (fd : Int) (progHeaderSize : Word) : Nat → Word → LoadingM Bool
  | 0, _ => return true
  | n + 1, progHeaderOffset => do
    let _ ← onSpaces (onFs (sysLseek fd progHeaderOffset .seekSet))
    let bytes ← onSpaces (onFs (sysRead fd progHeaderSize))
    if (bytes.getD []).length ≠ progHeaderSize.toNat then return false
    else
      let progHeader := Elf32Phdr.ofBytes (bytes.getD [])
      if progHeader.pType = ptLoad then
        if ← segmentLoad fd progHeader.pOffset progHeader.pFilesz progHeader.pVaddr then
          loadHeaders fd progHeaderSize n (progHeaderOffset + progHeaderSize)
        else return false
      else loadHeaders fd progHeaderSize n (progHeaderOffset + progHeaderSize)

def loadOpened (fd : Int) : LoadingM Word := do
  let bytes ← onSpaces (onFs (sysRead fd 52))
  if (bytes.getD []).length ≠ 52 then return -1
  else
    let elfHeader := Elf32Ehdr.ofBytes (bytes.getD [])
    if elfHeader.Valid then
      if ← loadHeaders fd (elfHeader.ePhentsize.zeroExtend 32) elfHeader.ePhnum.toNat elfHeader.ePhoff
        then return elfHeader.eEntry
      else return -1
    else return -1

def load (stack : Stack) (pathname : List Byte) : LoadingM Word := do
  let fd ← onSpaces (onFs (sysOpen stack pathname 0))
  if fd = -1 then return -1
  else
    let ret ← loadOpened fd
    let _ ← onSpaces (onFs (sysClose fd))
    return ret

/-- `sys_execv`: the address at which user mode is entered, `none` for the return of `-1`. -/
def sysExecv (stack : Stack) (path : List Byte) : LoadingM (Option Word) := do
  let entryPoint ← load stack path
  if entryPoint = -1 then return none else return some entryPoint

/-- The pieces of the file that `load` puts into memory, with their addresses, from the program header
at `progHeaderOffset` on; `false` when a header is cut off. -/
def deliveries (data : List Byte) (progHeaderSize : Word) : Nat → Nat → Word → List (Word × List Byte) × Bool
  | 0, _, _ => ([], true)
  | n + 1, pos, progHeaderOffset =>
    let pos := seekSet data pos progHeaderOffset
    let bytes := readAt data pos progHeaderSize.toNat
    if bytes.length ≠ progHeaderSize.toNat then ([], false)
    else
      let progHeader := Elf32Phdr.ofBytes bytes
      let pos := pos + bytes.length
      if progHeader.pType = ptLoad then
        let pos := seekSet data pos progHeader.pOffset
        let bytes := readAt data pos progHeader.pFilesz.toNat
        let rest := deliveries data progHeaderSize n (pos + bytes.length) (progHeaderOffset + progHeaderSize)
        ((progHeader.pVaddr, bytes) :: rest.1, rest.2)
      else deliveries data progHeaderSize n pos (progHeaderOffset + progHeaderSize)

def loadImage (data : List Byte) : List (Word × List Byte) × Word :=
  let bytes := readAt data 0 52
  if bytes.length ≠ 52 then ([], -1)
  else
    let elfHeader := Elf32Ehdr.ofBytes bytes
    if elfHeader.Valid then
      let (pieces, complete) :=
        deliveries data (elfHeader.ePhentsize.zeroExtend 32) elfHeader.ePhnum.toNat 52 elfHeader.ePhoff
      (pieces, if complete then elfHeader.eEntry else -1)
    else ([], -1)

def Reaches (piece : Word × List Byte) (a : Nat) : Prop := ∃ i < piece.2.length, a = (piece.1 + BitVec.ofNat 32 i).toNat

section
variable {A : Type} {s t : Loading} {fd g p has pos : Nat} {data : List Byte}

theorem onSpaces_eq_ok {x : SpacesM A} {a : A} : onSpaces x s = .ok (a, t) ↔ ∃ u, x s.spaces = .ok (a, u) ∧
    t = { s with spaces := u } := Prog.zoom_eq_ok

theorem onFs_eq_ok {x : FsM A} {a : A} {s t : Spaces} : onFs x s = .ok (a, t) ↔ ∃ f, x s.fs = .ok (a, f) ∧
    t = { s with fs := f } := Prog.zoom_eq_ok

theorem onSpaces_last (x : SpacesM A) (s : Loading) : ((onSpaces x).last s).written = s.written := by
  have keeps : Prog.Keeps (fun s t : Loading => t.written = s.written) (onSpaces x) :=
    (Prog.Keeps.always x).zoom fun _ _ _ => rfl
  exact (keeps.within s).last (fun _ => rfl) fun _ _ _ first second => second.trans first

theorem storeByte_eq_ok {addr : Word} (run : storeByte addr byte s = .ok ((), t)) :
    s.spaces.paging.Present (addr.toNat / pgSize) ∧ t.written = addr.toNat :: s.written ∧
      t.spaces = s.spaces.setFrame (s.spaces.paging.pte (addr.toNat / pgSize)).frame
        (update (s.spaces.frames (s.spaces.paging.pte (addr.toNat / pgSize)).frame) (addr.toNat % pgSize) byte) := by
  rw [storeByte, get_bind] at run
  obtain ⟨present, run⟩ := require_bind_eq_ok.mp run
  cases run
  exact ⟨present, rfl, rfl⟩

theorem reaches_cons {rest : List Byte} {a : Nat} :
    Reaches (vaddr, byte :: rest) a ↔ a = vaddr.toNat ∨ Reaches (vaddr + 1, rest) a := by
  have shift (i : Nat) : vaddr + BitVec.ofNat 32 (i + 1) = vaddr + 1 + BitVec.ofNat 32 i := by
    rw [BitVec.ofNat_add, BitVec.add_comm (BitVec.ofNat 32 i), ← BitVec.add_assoc]
    rfl
  constructor
  · rintro ⟨i, low, rfl⟩
    cases i with
    | zero => exact .inl (congrArg BitVec.toNat (BitVec.add_zero vaddr))
    | succ i => exact .inr ⟨i, Nat.lt_of_succ_lt_succ low, congrArg BitVec.toNat (shift i)⟩
  · rintro (rfl | ⟨i, low, rfl⟩)
    · exact ⟨0, Nat.succ_pos _, (congrArg BitVec.toNat (BitVec.add_zero vaddr)).symm⟩
    · exact ⟨i + 1, Nat.succ_lt_succ low, (congrArg BitVec.toNat (shift i)).symm⟩

theorem storeBytes_written {bytes : List Byte} (run : storeBytes vaddr bytes s = .ok ((), t)) :
    t.spaces.fs = s.spaces.fs ∧ ∀ a, a ∈ t.written ↔ a ∈ s.written ∨ Reaches (vaddr, bytes) a := by
  induction bytes generalizing s vaddr with
  | nil =>
    cases run
    exact ⟨rfl, fun a => ⟨.inl, fun either => either.elim id fun ⟨i, low, _⟩ => absurd low (Nat.not_lt_zero i)⟩⟩
  | cons byte rest ih =>
    obtain ⟨_, u, store, loop⟩ := bind_eq_ok.mp run
    obtain ⟨-, written, spaces⟩ := storeByte_eq_ok store
    obtain ⟨fs, mem⟩ := ih loop
    refine ⟨by rw [fs, spaces]; rfl, fun a => ?_⟩
    rw [mem, written, List.mem_cons, reaches_cons]
    tauto

/-- A property of the addresses that a run alone has written when it ends, well or not. -/
def Logs (x : LoadingM A) (s : Loading) (W : Nat → Prop) : Prop := ∀ a ∈ (x.last s).written, W a

variable {W : Nat → Prop}

theorem Logs.bind {B : Type} {x : LoadingM A} {f : A → LoadingM B} (first : Logs x s W)
    (rest : ∀ a t, x s = .ok (a, t) → Logs (f a) t W) :
    Logs (x >>= f) s W := Prog.last_bind (P := fun u : Loading => ∀ a ∈ u.written, W a) first rest

theorem logs_of_ok {x : LoadingM A} {a : A} (run : x s = .ok (a, t)) : Logs x s W ↔ ∀ a ∈ t.written, W a := by
  rw [Logs, Prog.last_of_ok run]

theorem logs_onSpaces {x : SpacesM A} (old : ∀ a ∈ s.written, W a) : Logs (onSpaces x) s W := by
  rwa [Logs, onSpaces_last]

theorem logs_pure {a : A} (old : ∀ a ∈ s.written, W a) : Logs (pure a) s W := old

theorem storeByte_logs {addr : Word} (old : ∀ a ∈ s.written, W a) (new : W addr.toNat) : Logs
    (storeByte addr byte) s W := by
  refine Logs.bind old fun _ _ got => ?_
  cases got
  -- The page is looked up before the write.
  refine Logs.bind ?_ fun _ u check => ?_
  · rw [Logs, Prog.require]
    split <;> exact old
  · obtain ⟨-, rfl⟩ := Prod.mk.inj (require_eq_ok.mp check).2
    exact List.forall_mem_cons.mpr ⟨new, old⟩

theorem storeBytes_logs {bytes : List Byte} (old : ∀ a ∈ s.written, W a) (new : ∀ a, Reaches (vaddr, bytes) a → W a) :
    Logs (storeBytes vaddr bytes) s W := by
  induction bytes generalizing s vaddr with
  | nil => exact old
  | cons byte rest ih =>
    have first : W vaddr.toNat := new _ (reaches_cons.mpr (.inl rfl))
    refine (storeByte_logs old first).bind fun _ u store => ih ?_ fun a there => new a (reaches_cons.mpr (.inr there))
    rw [(storeByte_eq_ok store).2.1]
    exact List.forall_mem_cons.mpr ⟨first, old⟩

theorem getUserPage_eq_ok {page : Nat} {r : Option Nat}
    (run : onSpaces (onPaging (getAPage .user (page * pgSize))) s = .ok (r, t)) :
    ∃ q, getAPage .user (page * pgSize) s.spaces.paging = .ok (some (page * pgSize), q) ∧ r = some (page * pgSize) ∧
      t = { s with spaces := { s.spaces with paging := q } } := by
  obtain ⟨u, inSpaces, rfl⟩ := onSpaces_eq_ok.mp run
  obtain ⟨q, inPaging, rfl⟩ := onPaging_eq_ok.mp inSpaces
  obtain rfl := getAPage_some inPaging
  exact ⟨q, inPaging, rfl, rfl⟩

theorem segmentPages_eq_ok {cnt page : Nat} (run : segmentPages cnt page s = .ok (b, t)) :
    b = true ∧ t.written = s.written ∧ t.spaces.fs = s.spaces.fs := by
  induction cnt generalizing s page with
  | zero =>
    cases run
    exact ⟨rfl, rfl, rfl⟩
  | succ cnt ih =>
    rw [segmentPages, get_bind] at run
    split at run
    · exact ih run
    · obtain ⟨r, u, call, rest⟩ := bind_eq_ok.mp run
      obtain ⟨q, -, rfl, rfl⟩ := getUserPage_eq_ok call
      exact ih (s := { s with spaces := { s.spaces with paging := q } }) rest

theorem segmentPages_logs {cnt page : Nat} (old : ∀ a ∈ s.written, W a) : Logs (segmentPages cnt page) s W := by
  induction cnt generalizing s page with
  | zero => exact old
  | succ cnt ih =>
    refine Logs.bind old fun _ _ got => ?_
    cases got
    split
    · exact ih old
    · refine (logs_onSpaces old).bind fun r u call => ?_
      obtain ⟨v, -, rfl⟩ := onSpaces_eq_ok.mp call
      cases r with
      | none => exact old
      | some _ => exact ih old

theorem onFs_run {x : FsM A} {a : A} (run : onSpaces (onFs x) s = .ok (a, t)) : x s.spaces.fs = .ok (a, t.spaces.fs) ∧
    t.written = s.written ∧ t.spaces.paging = s.spaces.paging := by
  obtain ⟨u, inSpaces, rfl⟩ := onSpaces_eq_ok.mp run
  obtain ⟨f, inFs, rfl⟩ := onFs_eq_ok.mp inSpaces
  exact ⟨inFs, rfl, rfl⟩

theorem Logs.onFs {B : Type} {x : FsM A} {f : A → LoadingM B} (old : ∀ a ∈ s.written, W a)
    (rest : ∀ a t, x s.spaces.fs = .ok (a, t.spaces.fs) → (∀ a ∈ t.written, W a) → Logs (f a) t W) :
    Logs (onSpaces (onFs x) >>= f) s W := by
  refine (logs_onSpaces old).bind fun a t run => ?_
  obtain ⟨run, written, -⟩ := onFs_run run
  rw [← written] at old
  exact rest a t run old

def afterSegment (data : List Byte) (pos : Nat) (offset filesz : Word) : Nat :=
  seekSet data pos offset + (readAt data (seekSet data pos offset) filesz.toNat).length

section
variable (reading : s.spaces.fs.Reading fd g p has data pos)
include reading

theorem segmentLoad_eq_ok {filesz : Word}
    (run : segmentLoad fd offset filesz vaddr s = .ok (b, t)) :
    b = true ∧ t.spaces.fs.Reading fd g p has data (afterSegment data pos offset filesz) ∧
      ∀ a, a ∈ t.written ↔ a ∈ s.written ∨ Reaches (vaddr, readAt data (seekSet data pos offset) filesz.toNat) a := by
  obtain ⟨mapped, s₁, pages, run⟩ := bind_eq_ok.mp run
  obtain ⟨rfl, written₁, fs₁⟩ := segmentPages_eq_ok pages
  rw [if_pos rfl] at run
  obtain ⟨_, s₂, seek, run⟩ := bind_eq_ok.mp run
  obtain ⟨seek, written₂, -⟩ := onFs_run seek
  rw [fs₁] at seek
  have reading₂ := reading.sysLseek seek
  obtain ⟨bytes, s₃, read, run⟩ := bind_eq_ok.mp run
  obtain ⟨read, written₃, -⟩ := onFs_run read
  obtain ⟨same, reading₃⟩ := reading₂.sysRead read
  obtain ⟨_, s₄, store, run⟩ := bind_eq_ok.mp run
  cases run
  obtain ⟨fs₄, mem⟩ := storeBytes_written store
  rw [same] at mem
  refine ⟨rfl, by rw [fs₄]; exact reading₃, fun a => ?_⟩
  rw [mem, written₃, written₂, written₁]

theorem segmentLoad_logs {filesz : Word} (old : ∀ a ∈ s.written, W a)
    (new : ∀ a, Reaches (vaddr, readAt data (seekSet data pos offset) filesz.toNat) a → W a) :
    Logs (segmentLoad fd offset filesz vaddr) s W := by
  refine (segmentPages_logs old).bind fun mapped s₁ pages => ?_
  obtain ⟨rfl, written₁, fs₁⟩ := segmentPages_eq_ok pages
  rw [if_pos rfl]
  rw [← written₁] at old
  refine .onFs old fun _ s₂ seek old => .onFs old fun bytes s₃ read old => ?_
  rw [fs₁] at seek
  obtain ⟨same, -⟩ := (reading.sysLseek seek).sysRead read
  rw [same]
  refine (storeBytes_logs old new).bind fun _ s₄ store => ?_
  refine logs_pure fun a member => ?_
  exact (((storeBytes_written store).2 a).mp member).elim (old a) (new a)

theorem loadHeaders_eq_ok {size : Word} {n : Nat}
    (run : loadHeaders fd size n offset s = .ok (b, t)) :
    b = (deliveries data size n pos offset).2 ∧ ∀ a, a ∈ t.written ↔ a ∈ s.written ∨
      ∃ piece ∈ (deliveries data size n pos offset).1, Reaches piece a := by
  induction n generalizing s pos offset with
  | zero =>
    cases run
    exact ⟨rfl, fun a => by simp [deliveries]⟩
  | succ n ih =>
    obtain ⟨_, s₁, seek, run⟩ := bind_eq_ok.mp run
    obtain ⟨seek, written₁, -⟩ := onFs_run seek
    obtain ⟨bytes, s₂, read, run⟩ := bind_eq_ok.mp run
    obtain ⟨read, written₂, -⟩ := onFs_run read
    obtain ⟨same, reading₂⟩ := (reading.sysLseek seek).sysRead read
    rw [same] at run
    rw [← written₁, ← written₂]
    unfold deliveries
    dsimp only
    split
    · next short =>
      rw [if_pos short] at run
      cases run
      exact ⟨rfl, fun a => by simp⟩
    · next whole =>
      rw [if_neg whole] at run
      split
      · next loads =>
        rw [if_pos loads] at run
        obtain ⟨_, s₃, segment, run⟩ := bind_eq_ok.mp run
        obtain ⟨rfl, reading₃, mem⟩ := segmentLoad_eq_ok reading₂ segment
        rw [if_pos rfl] at run
        obtain ⟨returned, mem'⟩ := ih reading₃ run
        refine ⟨returned, fun a => ?_⟩
        rw [mem', mem, or_assoc, List.exists_mem_cons_iff]
        rfl
      · next skips =>
        rw [if_neg skips] at run
        exact ih reading₂ run

theorem loadHeaders_logs {size : Word} {n : Nat} (old : ∀ a ∈ s.written, W a)
    (new : ∀ piece ∈ (deliveries data size n pos offset).1, ∀ a, Reaches piece a → W a) :
    Logs (loadHeaders fd size n offset) s W := by
  induction n generalizing s pos offset with
  | zero => exact old
  | succ n ih =>
    refine .onFs old fun _ s₁ seek old => .onFs old fun bytes s₂ read old => ?_
    obtain ⟨same, reading₂⟩ := (reading.sysLseek seek).sysRead read
    rw [same]
    unfold deliveries at new
    dsimp only at new
    split
    · exact logs_pure old
    · next whole =>
      rw [if_neg whole] at new
      dsimp only
      split
      · next loads =>
        rw [if_pos loads] at new
        obtain ⟨first, others⟩ := List.forall_mem_cons.mp new
        refine (segmentLoad_logs reading₂ old first).bind fun _ s₃ segment => ?_
        obtain ⟨rfl, reading₃, mem⟩ := segmentLoad_eq_ok reading₂ segment
        rw [if_pos rfl]
        exact ih reading₃ (fun a member => ((mem a).mp member).elim (old a) (first a)) others
      · next skips =>
        rw [if_neg skips] at new
        exact ih reading₂ old new

end

theorem loadOpened_eq_ok {ret : Word} (reading : s.spaces.fs.Reading fd g p has data 0)
    (run : loadOpened fd s = .ok (ret, t)) :
    ret = (loadImage data).2 ∧ ∀ a, a ∈ t.written ↔ a ∈ s.written ∨ ∃ piece ∈ (loadImage data).1, Reaches piece a := by
  obtain ⟨bytes, s₁, read, run⟩ := bind_eq_ok.mp run
  obtain ⟨read, written₁, -⟩ := onFs_run read
  obtain ⟨same, reading₁⟩ := reading.sysRead read
  rw [show (52 : Word).toNat = 52 from rfl] at same reading₁
  rw [same] at run
  rw [← written₁]
  unfold loadImage
  dsimp only
  split
  · next short =>
    rw [if_pos short] at run
    cases run
    exact ⟨rfl, fun a => by simp⟩
  · next whole =>
    rw [if_neg whole] at run
    rw [not_not.mp whole] at reading₁
    split
    · next valid =>
      rw [if_pos valid] at run
      obtain ⟨complete, s₂, loop, run⟩ := bind_eq_ok.mp run
      obtain ⟨rfl, mem⟩ := loadHeaders_eq_ok reading₁ loop
      split at run
      · next complete =>
        cases run
        exact ⟨(if_pos complete).symm, mem⟩
      · next partly =>
        cases run
        exact ⟨(if_neg partly).symm, mem⟩
    · next other =>
      rw [if_neg other] at run
      cases run
      exact ⟨rfl, fun a => by simp⟩

theorem loadOpened_logs (reading : s.spaces.fs.Reading fd g p has data 0) (old : ∀ a ∈ s.written, W a)
    (new : ∀ piece ∈ (loadImage data).1, ∀ a, Reaches piece a → W a) : Logs (loadOpened fd) s W := by
  refine .onFs old fun bytes s₁ read old => ?_
  obtain ⟨same, reading₁⟩ := reading.sysRead read
  rw [show (52 : Word).toNat = 52 from rfl] at same reading₁
  rw [same]
  unfold loadImage at new
  dsimp only at new
  split
  · exact logs_pure old
  · next whole =>
    rw [if_neg whole] at new
    rw [not_not.mp whole] at reading₁
    dsimp only
    split
    · next valid =>
      rw [if_pos valid] at new
      refine (loadHeaders_logs reading₁ old new).bind fun complete s₂ loop => ?_
      grind [loadHeaders_eq_ok, logs_pure]
    · exact logs_pure old

end

def Spaces.HasFile (s : Spaces) (stack : Stack) (path : List Byte) (data : List Byte) : Prop :=
  ∃ (fd g p has : Nat) (f : Fs), sysOpen stack path 0 s.fs = .ok ((fd : Int), f) ∧ f.Reading fd g p has data 0

section
variable {s : Spaces} {stack : Stack} {path data : List Byte}

section
variable (file : s.HasFile stack path data)
include file

theorem load_eq_ok {ret : Word} (run : load stack path ⟨s, []⟩ = .ok (ret, t)) :
    ret = (loadImage data).2 ∧ ∀ a, a ∈ t.written ↔ ∃ piece ∈ (loadImage data).1, Reaches piece a := by
  obtain ⟨fd, g, p, has, f, opened, reading⟩ := file
  rw [load, bind_of_ok (onSpaces_eq_ok.mpr ⟨_, onFs_of_ok opened, rfl⟩), if_neg (by omega)] at run
  obtain ⟨ret', s₁, middle, run⟩ := bind_eq_ok.mp run
  obtain ⟨returned, mem⟩ := loadOpened_eq_ok reading middle
  obtain ⟨_, s₂, close, run⟩ := bind_eq_ok.mp run
  cases run
  refine ⟨returned, fun a => ?_⟩
  rw [(onFs_run close).2.1, mem]
  simp

theorem load_logs {W : Nat → Prop} (new : ∀ piece ∈ (loadImage data).1, ∀ a, Reaches piece a → W a) :
    Logs (load stack path) ⟨s, []⟩ W := by
  obtain ⟨fd, g, p, has, f, opened, reading⟩ := file
  have old : ∀ a ∈ ([] : List Nat), W a := fun a member => absurd member List.not_mem_nil
  refine (logs_onSpaces old).bind fun fd' s₁ found => ?_
  cases (onSpaces_eq_ok.mpr ⟨_, onFs_of_ok opened, rfl⟩).symm.trans found
  rw [if_neg (by omega)]
  refine (loadOpened_logs reading old new).bind fun ret s₂ middle => ?_
  have all : ∀ a ∈ s₂.written, W a := fun a member =>
    (((loadOpened_eq_ok reading middle).2 a).mp member).elim (old a) fun ⟨piece, among, there⟩ =>
      new piece among a there
  exact .onFs all fun _ s₃ _ all => logs_pure all

/-- `sys_execv` writes nothing into the kernel's half of the address space and does not enter it. -/
structure Spaces.Confined (s : Spaces) (stack : Stack) (path : List Byte) : Prop where
  writes : Logs (sysExecv stack path) ⟨s, []⟩ (· < 0xc0000000)
  enters : ∀ eip t, sysExecv stack path ⟨s, []⟩ = .ok (some eip, t) → eip.toNat < 0xc0000000

/-- The addresses that the headers of a file give are below the kernel, as far as bytes go to them. -/
structure ImageConfined (data : List Byte) : Prop where
  pieces : ∀ piece ∈ (loadImage data).1, ∀ i < piece.2.length, (piece.1 + BitVec.ofNat 32 i).toNat < 0xc0000000
  entry : (loadImage data).2 = -1 ∨ (loadImage data).2.toNat < 0xc0000000

theorem sysExecv_eq_ok {r : Option Word} (run : sysExecv stack path ⟨s, []⟩ = .ok (r, t)) :
    (r = if (loadImage data).2 = -1 then none else some (loadImage data).2) ∧ ∀ a, a ∈ t.written ↔
    ∃ piece ∈ (loadImage data).1, Reaches piece a := by
  obtain ⟨entry, u, loaded, run⟩ := bind_eq_ok.mp run
  obtain ⟨rfl, mem⟩ := load_eq_ok file loaded
  split at run
  · next failed =>
    cases run
    exact ⟨(if_pos failed).symm, mem⟩
  · next entered =>
    cases run
    exact ⟨(if_neg entered).symm, mem⟩

theorem confined_of_image (image : ImageConfined data) : s.Confined stack path where
  writes := by
    have new : ∀ piece ∈ (loadImage data).1, ∀ a, Reaches piece a → a < 0xc0000000 := by
      rintro piece among a ⟨i, low, rfl⟩
      exact image.pieces piece among i low
    refine (load_logs file new).bind fun entry u loaded => ?_
    grind [load_eq_ok, logs_pure]
  enters := by grind [sysExecv_eq_ok, image.entry]

theorem image_of_confined {r : Option Word} (run : sysExecv stack path ⟨s, []⟩ = .ok (r, t))
    (confined : s.Confined stack path) : ImageConfined data where
  pieces := fun piece among i low =>
    (logs_of_ok run).mp confined.writes _ (((sysExecv_eq_ok file run).2 _).mpr ⟨piece, among, i, low, rfl⟩)
  entry := by
    by_cases failed : (loadImage data).2 = -1
    · exact .inl failed
    · obtain ⟨returned, -⟩ := sysExecv_eq_ok file run
      rw [if_neg failed] at returned
      rw [returned] at run
      exact .inr (confined.enters _ t run)

end

theorem confined_of_no_file (none : ∀ fd f, sysOpen stack path 0 s.fs = .ok (fd, f) → fd = -1) :
    s.Confined stack path := by
  have nothing : ∀ a ∈ ([] : List Nat), a < 0xc0000000 := fun a member => absurd member List.not_mem_nil
  have fails {fd : Int} {u : Loading} (opened : onSpaces (onFs (sysOpen stack path 0)) ⟨s, []⟩ = .ok (fd, u)) :
      fd = -1 ∧ u.written = [] :=
    ⟨none fd _ (onFs_run opened).1, (onFs_run opened).2.1⟩
  constructor
  · refine Logs.bind ((logs_onSpaces nothing).bind fun fd u opened => ?_) fun entry u loaded => ?_
    · rw [if_pos (fails opened).1]
      exact logs_pure (by rwa [(fails opened).2])
    · obtain ⟨fd, v, opened, run⟩ := bind_eq_ok.mp loaded
      rw [if_pos (fails opened).1] at run
      cases run
      rw [if_pos rfl]
      exact logs_pure (by rwa [(fails opened).2])
  · intro eip t run
    obtain ⟨entry, u, loaded, run⟩ := bind_eq_ok.mp run
    obtain ⟨fd, v, opened, rest⟩ := bind_eq_ok.mp loaded
    rw [if_pos (fails opened).1] at rest
    cases rest
    rw [if_pos rfl] at run
    cases run

end

/-- Nothing in `load` looks at the addresses: `sys_execv` is confined exactly when the file is. A run
that stops at a failed assertion has written only bytes of the file before. -/
theorem sysExecv_confined_iff (s : Spaces) (stack : Stack) (path : List Byte) :
    ((∀ fd f, sysOpen stack path 0 s.fs = .ok (fd, f) → fd = -1) → s.Confined stack path) ∧
      ∀ data, s.HasFile stack path data → (ImageConfined data → s.Confined stack path) ∧
        ∀ r t, sysExecv stack path ⟨s, []⟩ = .ok (r, t) → (s.Confined stack path ↔ ImageConfined data) :=
  ⟨confined_of_no_file, fun _ file =>
    ⟨confined_of_image file, fun _ _ run => ⟨image_of_confined file run, confined_of_image file⟩⟩⟩

def wordBytes (w : Word) : List Byte := (List.range 4).map (Memory.wordByte w)

def elfFile (entry vaddr filesz memsz : Word) (body : List Byte) : List Byte :=
  [0x7f, 0x45, 0x4c, 0x46, 1, 1, 1, 0, 0, 0, 0, 0, 0, 0, 0, 0, 2, 0, 3, 0, 1, 0, 0, 0] ++ wordBytes entry ++
    wordBytes 52 ++
    wordBytes 0 ++ wordBytes 0 ++ [0, 0, 32, 0, 1, 0, 0, 0, 0, 0, 0, 0] ++
    wordBytes ptLoad ++ wordBytes 84 ++ wordBytes vaddr ++ wordBytes vaddr ++ wordBytes filesz ++ wordBytes memsz ++
      wordBytes 0 ++ wordBytes 0 ++ body

def fileTree (data : List Byte) : Fs := { smallTree with
  disk := fun a =>
    if a / 512 = 2 then (if a = 1024 then 0x0f else 0)
    else if a / 512 = 4 then
      tableBlock [smallInode 0 120 612, smallInode 1 72 613, smallInode 2 (BitVec.ofNat 32 data.length) 615,
        smallInode 3 0 0, smallInode 4 48 614] (a % 512)
    else if a / 512 = 615 then data.getD (a % 512) 0
    else smallTree.disk a
  part := { smallTree.part with blockBitmap := ⟨512, fun a => if a = 0 then 0x0f else 0⟩ } }

def fileSpaces (data : List Byte) : Spaces := { smallSpaces twoMarks with fs := fileTree data }

def openedTree (data : List Byte) : Fs := (sysOpen ⟨0, 0, 0⟩ [0x2f, 0x66] 0).final (fileTree data)

structure OpenedTree (data : List Byte) : Prop where
  opened : sysOpen ⟨0, 0, 0⟩ [0x2f, 0x66] 0 (fileTree data) = .ok (3, openedTree data)
  part : (openedTree data).part.geometry = smallPartition.geometry
  bits : (openedTree data).volume.bit .block 0 = true ∧ (openedTree data).volume.bit .block 3 = true
  slot : (openedTree data).fdTable 3 = some 3 ∧ (openedTree data).fileTable 3 = ⟨0, 0, some 1⟩
  size : ((openedTree data).heap 1).iSize.toNat = data.length ∧ data.length < 512
  table : ((openedTree data).heap 1).sector 12 = 0
  pointer : ∀ k ≤ 140, (openedTree data).volume.pointer ((openedTree data).heap 1) k = if k = 0 then 615 else 0
  content : ∀ x < data.length, (openedTree data).volume.byte ((openedTree data).heap 1) x = data.getD x 0

theorem OpenedTree.hasFile {data : List Byte} (tree : OpenedTree data) :
    (fileSpaces data).HasFile ⟨0, 0, 0⟩ [0x2f, 0x66] data := by
  have number : (openedTree data).BlockNo 615 3 := by
    obtain ⟨-, -, sb, blocks, -⟩ := by simpa only [Partition.geometry, Prod.mk.injEq] using tree.part
    rw [Fs.BlockNo, Partition.bitCount, Partition.bitmap, blocks, sb]
    exact ⟨by decide, by decide⟩
  have only {k : Nat} (low : k ≤ 140) (some : (openedTree data).volume.pointer ((openedTree data).heap 1) k ≠ 0) :
      k = 0 := by
    by_contra other
    exact some ((tree.pointer k low).trans (if_neg other))
  have owns : (openedTree data).Owns ((openedTree data).heap 1) := by
    refine ⟨fun k low some => ?_, fun k k' low low' some same => ?_⟩
    · obtain rfl := only low some
      rw [tree.pointer 0 low]
      exact ⟨3, number, tree.bits.2⟩
    · rw [only low some, only low' (same ▸ some)]
  have shape : (openedTree data).FileShape ((openedTree data).heap 1) 1 := by
    refine ⟨fun k low => ⟨fun some => ?_, fun first => ?_⟩, .inr ?_⟩
    · rw [only (by omega) some]
      exact Nat.one_pos
    · rw [tree.pointer k (by omega), if_pos (by omega)]
      decide
    · have := tree.size
      omega
  have onDisk (k : Nat) (low : k ≤ 140) : ((openedTree data).volume.pointer ((openedTree data).heap 1) k).toNat ≤
      maxLba := by
    rw [tree.pointer k low]
    split <;> decide
  have slot : (openedTree data).fileTable 3 = ⟨0, 0, some 1⟩ := tree.slot.2
  exact ⟨3, 3, 1, 1, openedTree data, tree.opened, {
    opened := Nat.le_refl 3
    slot := tree.slot.1
    plain := by rw [slot]; decide
    holds := ⟨layout_smallPartition.congr tree.part, tree.bits.1, by rw [slot], owns, shape, tree.size.1, tree.content⟩
    ready := ⟨shape, owns, onDisk, fun _ => tree.table⟩
    place := by rw [slot]; rfl
    inside := Nat.zero_le _
    small := by have := tree.size.2; omega }⟩

def plainFile : List Byte := elfFile 0x8048000 0x8048000 4 4 [1, 2, 3, 4]

theorem plainFile_opened : OpenedTree plainFile where
  opened := run_final_of (by decide +kernel)
  part := rfl
  bits := by decide +kernel
  slot := ⟨by decide +kernel, rfl⟩
  size := by decide +kernel
  table := by decide +kernel
  pointer := by decide +kernel
  content := by decide +kernel

theorem sysExecv_confined_plain : (fileSpaces plainFile).Confined ⟨0, 0, 0⟩ [0x2f, 0x66] :=
  ((sysExecv_confined_iff (fileSpaces plainFile) ⟨0, 0, 0⟩ [0x2f, 0x66]).2 plainFile plainFile_opened.hasFile).1
    ⟨by decide +kernel, .inr (by decide +kernel)⟩

/-- A file whose segment and entry point lie in the page of the running task's PCB. -/
theorem sysExecv_enters_kernel : ∃ t, sysExecv ⟨0, 0, 0⟩ [0x2f, 0x66]
    ⟨fileSpaces (elfFile 0xc0100010 0xc0100010 4 4 [1, 2, 3, 4]), []⟩ = .ok (some 0xc0100010, t) ∧
    t.written = [0xc0100013, 0xc0100012, 0xc0100011, 0xc0100010] := by
  obtain ⟨r, t, run, found⟩ := exists_of_yields (x := sysExecv ⟨0, 0, 0⟩ [0x2f, 0x66])
    (s := ⟨fileSpaces (elfFile 0xc0100010 0xc0100010 4 4 [1, 2, 3, 4]), []⟩)
    (c := fun r t =>
      decide (r = some 0xc0100010 ∧ t.written = [0xc0100013, 0xc0100012, 0xc0100011, 0xc0100010])) (by decide +kernel)
  obtain ⟨rfl, written⟩ := of_decide_eq_true found
  exact ⟨t, run, written⟩

end LaiMiniOs
