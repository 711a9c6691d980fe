import LaiMiniOs.Fs.FileBlocks

/-! What `file_write` does to a file.

The loop that moves the data is taken one sector at a time; the size of the file is its
position. A run that returns tells that the data fits, which in turn tells that the sum of
size and count did not wrap.
-/

set_option autoImplicit false

namespace LaiMiniOs
open Foundation Prog Function

variable {p fdIdx count from_ has z n will : Nat} {blocks : Nat → Word} {src : Memory} {s' s₁ s₂ s₃ : Fs} {first : Bool}

def Kernel.advance (k : Kernel) (fdIdx p n : Nat) : Kernel :=
  { k.setInode p { k.heap p with iSize := (k.heap p).iSize + BitVec.ofNat 32 n } with
    fileTable := update k.fileTable fdIdx { k.fileTable fdIdx with
      fdPos := (k.fileTable fdIdx).fdPos + BitVec.ofNat 32 n } }

theorem Kernel.advance_zero (k : Kernel) (fdIdx p : Nat) : k.advance fdIdx p 0 = k := by
  simp [Kernel.advance, Kernel.setInode]

theorem Kernel.advance_advance (k : Kernel) (fdIdx p m n : Nat) :
    (k.advance fdIdx p m).advance fdIdx p n = k.advance fdIdx p (m + n) := by
  simp [Kernel.advance, Kernel.setInode, BitVec.ofNat_add, BitVec.add_assoc]

theorem Kernel.heap_advance (k : Kernel) (fdIdx p n : Nat) :
    (k.advance fdIdx p n).heap p = { k.heap p with iSize := (k.heap p).iSize + BitVec.ofNat 32 n } :=
  update_self _ _ _

theorem Kernel.advance_seekLast (k : Kernel) (fdIdx p n : Nat) (inode : Inode) :
    Kernel.advance { k.setInode p inode with
        fileTable := update k.fileTable fdIdx { k.fileTable fdIdx with fdPos := inode.iSize - 1 } } fdIdx p n =
      { k.setInode p { inode with iSize := inode.iSize + BitVec.ofNat 32 n } with
        fileTable := update k.fileTable fdIdx { k.fileTable fdIdx with
          fdPos := inode.iSize - 1 + BitVec.ofNat 32 n } } := by
  simp [Kernel.advance, Kernel.setInode]

def chunkSize (size left : Nat) : Nat := min left (512 - size % 512)

section
variable {s : Fs}

def Fs.writeChunk (s : Fs) (fdIdx p : Nat) (lba : Word) (buf data : Memory) (left : Nat) : Fs :=
  (s.putSector lba.toNat (buf.splice ((s.heap p).iSize.toNat % 512) data
    (chunkSize (s.heap p).iSize.toNat left))).withKernel
      (s.toKernel.advance fdIdx p (chunkSize (s.heap p).iSize.toNat left))

theorem writeLoop_done
    (done : count ≤ from_) : writeLoop fdIdx p blocks src count from_ first s = .ok ((), s) := by
  unfold writeLoop
  rw [if_neg (by omega), run_pure]

theorem writeLoop_step
    (more : from_ < count) {r : Unit × Fs} :
    writeLoop fdIdx p blocks src count from_ first s = .ok r ↔
      (s.heap p).iSize.toNat / 512 < 140 ∧ (blocks ((s.heap p).iSize.toNat / 512)).toNat ≤ maxLba ∧
        writeLoop fdIdx p blocks src count (from_ + chunkSize (s.heap p).iSize.toNat (count - from_)) false
          (s.writeChunk fdIdx p (blocks ((s.heap p).iSize.toNat / 512))
            (if first then sectors s.disk (blocks ((s.heap p).iSize.toNat / 512)).toNat 1 else Memory.zero)
            (src.window from_) (count - from_)) = .ok r := by
  generalize size : (s.heap p).iSize.toNat = z
  have read (onDisk : (blocks (z / 512)).toNat ≤ maxLba) :
      chunkBuf first (blocks (z / 512)) s =
        .ok (if first then sectors s.disk (blocks (z / 512)).toNat 1 else Memory.zero, s) := by
    cases first
    · rfl
    · exact ideRead_eq (addressable_one.mpr onDisk)
  conv_lhs => unfold writeLoop
  rw [if_pos more, get_bind]
  simp only [size]
  constructor
  · intro run
    obtain ⟨inside, run⟩ := require_bind_eq_ok.mp run
    have onDisk : (blocks (z / 512)).toNat ≤ maxLba := by
      obtain ⟨buf, t, -, run⟩ := bind_eq_ok.mp run
      obtain ⟨_, _, write, -⟩ := bind_eq_ok.mp run
      exact addressable_one.mp (ideWrite_eq_ok.mp write).1
    rw [bind_of_ok (read onDisk), bind_of_ok (ideWrite_eq (addressable_one.mpr onDisk)),
      modify_bind, modify_bind] at run
    refine ⟨inside, onDisk, ?_⟩
    rw [Fs.writeChunk, size]
    exact run
  · rintro ⟨inside, onDisk, run⟩
    rw [require_bind inside, bind_of_ok (read onDisk),
      bind_of_ok (ideWrite_eq (addressable_one.mpr onDisk)), modify_bind,
      modify_bind]
    rw [Fs.writeChunk, size] at run
    exact run

theorem size_writeChunk (s : Fs) (fdIdx p : Nat) (lba : Word) (buf data : Memory) (left : Nat)
    (inside : (s.heap p).iSize.toNat / 512 < 140) :
    ((s.writeChunk fdIdx p lba buf data left).heap p).iSize.toNat =
      (s.heap p).iSize.toNat + chunkSize (s.heap p).iSize.toNat left := by
  have heap : ((s.writeChunk fdIdx p lba buf data left).heap p).iSize =
      (s.heap p).iSize + BitVec.ofNat 32 (chunkSize (s.heap p).iSize.toNat left) :=
    congrArg Inode.iSize (s.toKernel.heap_advance fdIdx p _)
  rw [heap, BitVec.toNat_add, BitVec.toNat_ofNat]
  unfold chunkSize
  omega

theorem writeLoop_bound {r : Unit × Fs}
    (run : writeLoop fdIdx p blocks src count from_ first s = .ok r) :
    from_ < count → (s.heap p).iSize.toNat + (count - from_) ≤ 140 * 512 := by
  generalize left : count - from_ = n
  induction n using Nat.strongRecOn generalizing s from_ first with
  | ind n ih =>
    intro more
    obtain ⟨inside, -, run⟩ := (writeLoop_step more).mp run
    grind [size_writeChunk, chunkSize]

/-- What a run of the loop leaves behind: `data` in the blocks of the file, from its old end `z` on. -/
structure Written (fdIdx p z : Nat) (s : Fs) (blocks : Nat → Word) (data : Memory) (n : Nat) (first : Bool) (s' : Fs) :
    Prop where
  kernel : s'.toKernel = s.toKernel.advance fdIdx p n
  part : s'.part = s.part
  record : s'.volume.record = s.volume.record
  bit : s'.volume.bit = s.volume.bit
  stored : s'.volume.stored = s.volume.stored
  outside : ∀ lba, (∀ x, z ≤ x → x < z + n → (blocks (x / 512)).toNat ≠ lba) →
    s'.volume.block lba = s.volume.block lba
  inside : ∀ x, z ≤ x → x < z + n → s'.volume.block (blocks (x / 512)).toNat (x % 512) = data (x - z)
  before : first = true → ∀ y, y < z % 512 →
    s'.volume.block (blocks (z / 512)).toNat y = s.volume.block (blocks (z / 512)).toNat y

theorem Written.nothing (fdIdx p z : Nat) (s : Fs) (blocks : Nat → Word) (data : Memory) (first : Bool) :
    Written fdIdx p z s blocks data 0 first s where
  kernel := (s.toKernel.advance_zero fdIdx p).symm
  part := rfl
  record := rfl
  bit := rfl
  stored := rfl
  outside _ _ := rfl
  inside x low high := by omega
  before _ _ _ := rfl

theorem block_writeChunk (layout : Layout s.part) (fdIdx p : Nat) {lba : Word} (buf data : Memory) (left : Nat)
    (inData : s.part.sb.dataStartLba.toNat ≤ lba.toNat) :
    (s.writeChunk fdIdx p lba buf data left).volume = s.volume.putBlock lba.toNat
      (buf.splice ((s.heap p).iSize.toNat % 512) data (chunkSize (s.heap p).iSize.toNat left)) := by
  rw [Fs.writeChunk, volume_withKernel, volume_putSector layout inData]

theorem chunkSize_ends (more : 0 < n) : 0 < chunkSize z n ∧ chunkSize z n ≤ n ∧
    z % 512 + chunkSize z n ≤ 512 ∧ (chunkSize z n = n ∨ (z + chunkSize z n) % 512 = 0) := by
  unfold chunkSize
  omega

theorem writeLoop_written
    (layout : Layout s.part) (size : (s.heap p).iSize.toNat = z) (left : count - from_ = n)
    (inData : ∀ x, z ≤ x → x < z + n → s.part.sb.dataStartLba.toNat ≤ (blocks (x / 512)).toNat)
    (apart : ∀ x x', z ≤ x → x < z + n → z ≤ x' → x' < z + n →
      (blocks (x / 512)).toNat = (blocks (x' / 512)).toNat → x / 512 = x' / 512)
    (run : writeLoop fdIdx p blocks src count from_ first s = .ok ((), s')) :
    Written fdIdx p z s blocks (src.window from_) n first s' := by
  induction n using Nat.strongRecOn generalizing s from_ z first with
  | ind n ih =>
    by_cases more : from_ < count
    · obtain ⟨inside, -, run⟩ := (writeLoop_step more).mp run
      rw [size, left] at run
      rw [size] at inside
      generalize buffer : (if first then sectors s.disk (blocks (z / 512)).toNat 1 else Memory.zero) = buf at run
      have size₁ := size_writeChunk s fdIdx p (blocks (z / 512)) buf (src.window from_) n (by rw [size]; exact inside)
      have volume := block_writeChunk layout fdIdx p buf (src.window from_) n (inData z (Nat.le_refl _) (by omega))
      obtain ⟨kernel₁, part₁⟩ : (s.writeChunk fdIdx p (blocks (z / 512)) buf (src.window from_) n).toKernel =
          s.toKernel.advance fdIdx p (chunkSize z n) ∧
          (s.writeChunk fdIdx p (blocks (z / 512)) buf (src.window from_) n).part = s.part := by
        rw [Fs.writeChunk, size]
        exact ⟨rfl, rfl⟩
      generalize s.writeChunk fdIdx p (blocks (z / 512)) buf (src.window from_) n = s₁ at run size₁ volume kernel₁ part₁
      rw [size] at size₁ volume
      have ends := chunkSize_ends (z := z) (n := n) (by omega)
      generalize chunkSize z n = c at run size₁ volume kernel₁ ends
      have after := ih (n - c) (by omega) (s := s₁) (by rw [part₁]; exact layout) size₁ (by omega)
        (fun x low high => by
          rw [part₁]
          exact inData x (by omega) (by omega))
        (fun x x' low high low' high' => apart x x' (by omega) (by omega) (by omega) (by omega)) run
      have here : s₁.volume.block (blocks (z / 512)).toNat =
          (buf.splice (z % 512) (src.window from_) c).clip 512 := by
        rw [volume]
        exact update_self _ _ _
      -- The sector of this round is not written again.
      have kept : s'.volume.block (blocks (z / 512)).toNat = s₁.volume.block (blocks (z / 512)).toNat := by
        grind [after.outside]
      exact {
        kernel := by
          rw [after.kernel, kernel₁, Kernel.advance_advance]
          congr 1
          omega
        part := after.part.trans part₁
        record := by rw [after.record, volume]; rfl
        bit := by rw [after.bit, volume]; rfl
        stored := by rw [after.stored, volume]; rfl
        outside := by
          intro lba away
          rw [after.outside lba fun x low high => away x (by omega) (by omega), volume]
          exact update_of_ne (away z (by omega) (by omega)).symm _ _
        inside := by
          intro x low high
          by_cases later : z + c ≤ x
          · grind [after.inside, Memory.window]
          · have sector : x / 512 = z / 512 := by omega
            rw [sector, kept, here, Memory.clip_apply (by omega), Memory.splice_inside (by omega) (by omega)]
            congr 1
            omega
        before := by
          intro yes y low
          have read : buf = s.volume.block (blocks (z / 512)).toNat := by
            rw [← buffer, if_pos yes]
            exact (if_pos (inData z (Nat.le_refl _) (by omega))).symm
          rw [kept, here, Memory.clip_apply (by omega), Memory.splice_outside (by omega), read] }
    · rw [writeLoop_done (by omega)] at run
      cases run
      have none : n = 0 := by omega
      subst none
      exact .nothing fdIdx p z _ blocks _ first

theorem writeLoop_total
    (size : (s.heap p).iSize.toNat = z) (left : count - from_ = n) (fits : z + n ≤ 140 * 512)
    (onDisk : ∀ x, z ≤ x → x < z + n → (blocks (x / 512)).toNat ≤ maxLba) :
    ∃ s', writeLoop fdIdx p blocks src count from_ first s = .ok ((), s') := by
  induction n using Nat.strongRecOn generalizing s from_ z first with
  | ind n ih =>
    by_cases more : from_ < count
    · have inside : (s.heap p).iSize.toNat / 512 < 140 := by omega
      have ends := chunkSize_ends (z := z) (n := n) (by omega)
      have size₁ := size_writeChunk s fdIdx p (blocks ((s.heap p).iSize.toNat / 512))
        (if first then sectors s.disk (blocks ((s.heap p).iSize.toNat / 512)).toNat 1 else Memory.zero)
        (src.window from_) (count - from_) inside
      rw [size, left] at size₁
      have left₁ : count - (from_ + chunkSize z n) = n - chunkSize z n := by omega
      obtain ⟨s', run⟩ := ih (n - chunkSize z n) (by omega) size₁ left₁ (by omega)
        (fun x low high => onDisk x (by omega) (by omega))
      refine ⟨s', (writeLoop_step more).mpr ⟨inside, ?_, ?_⟩⟩
      · rw [size]
        exact onDisk z (Nat.le_refl _) (by omega)
      · rw [size, left]
        exact run
    · exact ⟨s, writeLoop_done (by omega)⟩

theorem part_writeLoop
    (run : writeLoop fdIdx p blocks src count from_ first s = .ok ((), s')) : s'.part = s.part := by
  generalize left : count - from_ = n
  induction n using Nat.strongRecOn generalizing s from_ first with
  | ind n ih =>
    by_cases more : from_ < count
    · obtain ⟨-, -, run⟩ := (writeLoop_step more).mp run
      have ends := chunkSize_ends (z := (s.heap p).iSize.toNat) (n := count - from_) (by omega)
      have shorter : count - (from_ + chunkSize (s.heap p).iSize.toNat (count - from_)) < n := by omega
      have rest := ih _ shorter run rfl
      exact rest
    · rw [writeLoop_done (by omega)] at run
      cases run
      rfl

def Fs.seekLast (s : Fs) (fdIdx p : Nat) : Fs :=
  s.setFile fdIdx { s.fileTable fdIdx with fdPos := (s.heap p).iSize - 1 }

structure Writes (fdIdx p : Nat) (src : Memory) (count : Word) (s s₁ : Fs) (blocks : Nat → Word) (s₂ s₃ s' : Fs) :
    Prop where
  small : ((s.heap p).iSize + count).toNat / 512 + 1 ≤ 140
  first : TakesFirst p s s₁
  collects : Collects p s₁ ((s.heap p).iSize.toNat / 512 + 1) (((s.heap p).iSize + count).toNat / 512 + 1) blocks s₂
  moves : writeLoop fdIdx p blocks src count.toNat 0 true (s₂.seekLast fdIdx p) = .ok ((), s₃)
  last : s' = putRecord s₃ (syncSlot (s₃.heap p)) (s₃.heap p).pureInode.image

theorem TakesFirst.geometry (takes : TakesFirst p s s₁) :
    s₁.part.geometry = s.part.geometry := by
  cases takes with
  | present => rfl
  | taken => exact geometry_addBlock _ _ _ _

theorem Collects.geometry (layout : Layout s.part)
    (collects : Collects p s has will blocks s') : s'.part.geometry = s.part.geometry := by
  cases collects with
  | last => rfl
  | lastIndirect => rfl
  | direct more low inside present grown => exact (grown.growth layout).geometry
  | newTable low high lowest none grown onDisk =>
    exact (grown.growth (layout_addTable layout p _)).geometry.trans (geometry_setBit s .block _ true)
  | indirect more low high present onDisk grown => exact (grown.growth layout).geometry

theorem fileWrite_returns {count : Word} {r : Int × Fs} (layout : Layout s.part)
    (held : (s.fileTable fdIdx).fdInode = some p) :
    fileWrite fdIdx src count s = .ok r ↔
      (512 * 140 < ((s.heap p).iSize + count).toNat ∧ r = (-1, s)) ∨
        ∃ s₁ blocks s₂ s₃ s', r = ((count.toNat : Int), s') ∧ Writes fdIdx p src count s s₁ blocks s₂ s₃ s' := by
  unfold fileWrite
  rw [get_bind]
  simp only [held]
  rw [get_bind]
  constructor
  · intro run
    by_cases limit : 512 * 140 < ((s.heap p).iSize + count).toNat
    · rw [if_pos limit, run_pure, Except.ok.injEq] at run
      exact .inl ⟨limit, run.symm⟩
    · rw [if_neg limit] at run
      obtain ⟨_, s₁, step, run⟩ := bind_eq_ok.mp run
      obtain ⟨_, here, takes⟩ := (firstBlock_eq_ok layout).mp step
      cases here
      simp only [Bool.not_true, Bool.false_eq_true, if_false] at run
      obtain ⟨small, run⟩ := require_bind_eq_ok.mp run
      have layout₁ := layout.congr takes.geometry
      obtain ⟨_, s₂, step, run⟩ := bind_eq_ok.mp run
      obtain ⟨blocks, _, here, collects⟩ := (collectForWrite_eq_ok layout₁).mp step
      cases here
      dsimp only at run
      rw [modify_bind] at run
      obtain ⟨_, s₃, moves, run⟩ := bind_eq_ok.mp run
      have layout₂ := layout₁.congr (collects.geometry layout₁)
      have layout₃ : Layout s₃.part := by
        rw [part_writeLoop moves]
        exact layout₂
      rw [get_bind, bind_of_ok (inodeSync_eq layout₃ _), run_pure,
        Except.ok.injEq] at run
      exact .inr ⟨s₁, blocks, s₂, s₃, _, run.symm, small, takes, collects, moves, rfl⟩
  · rintro (⟨limit, rfl⟩ | ⟨s₁, blocks, s₂, s₃, _, rfl, small, takes, collects, moves, rfl⟩)
    · rw [if_pos limit, run_pure]
    have layout₁ := layout.congr takes.geometry
    have layout₂ := layout₁.congr (collects.geometry layout₁)
    have layout₃ : Layout s₃.part := by
      rw [part_writeLoop moves]
      exact layout₂
    rw [if_neg (by omega), bind_of_ok ((firstBlock_eq_ok layout).mpr ⟨s₁, rfl, takes⟩)]
    simp only [Bool.not_true, Bool.false_eq_true, if_false]
    rw [require_bind small, bind_of_ok (collects.run layout₁)]
    dsimp only
    rw [modify_bind]
    refine (bind_of_ok moves).trans ?_
    rw [get_bind, bind_of_ok (inodeSync_eq layout₃ _), run_pure]

theorem fileWrite_eq_ok {count : Word} (layout : Layout s.part)
    (held : (s.fileTable fdIdx).fdInode = some p) :
    fileWrite fdIdx src count s = .ok ((count.toNat : Int), s') ↔
      ∃ s₁ blocks s₂ s₃, Writes fdIdx p src count s s₁ blocks s₂ s₃ s' := by
  rw [fileWrite_returns layout held]
  grind

/-- A file has no block and no data, or the blocks up to the one in which its next byte goes. -/
structure Fs.FileShape (s : Fs) (inode : Inode) (has : Nat) : Prop where
  blocks : s.volume.HasBlocks inode has
  size : (has = 0 ∧ inode.iSize = 0) ∨ has = inode.iSize.toNat / 512 + 1

theorem TakesFirst.kernel (takes : TakesFirst p s s₁) :
    s₁.toKernel = s.toKernel.setInode p ((s.heap p).withSectors (s₁.heap p).iSectors) := by
  cases takes with
  | present => rw [Inode.withSectors_self, Kernel.setInode_self]
  | @taken i => exact (heap_addBlock s p 0 i).1

theorem Collects.kernel (layout : Layout s.part)
    (collects : Collects p s has will blocks s') :
    s'.toKernel = s.toKernel.setInode p ((s.heap p).withSectors (s'.heap p).iSectors) := by
  cases collects with
  | last => rw [Inode.withSectors_self, Kernel.setInode_self]
  | lastIndirect => rw [Inode.withSectors_self, Kernel.setInode_self]
  | direct more low inside present grown => exact (grown.growth layout).kernel
  | @newTable _ _ i low high lowest none grown onDisk =>
    have table : (s.addTable p i).heap p = (s.heap p).setSector 12 (s.lbaOf i) := update_self _ _ _
    have kernel : (s.addTable p i).toKernel = s.toKernel.setInode p ((s.heap p).setSector 12 (s.lbaOf i)) := rfl
    refine (grown.growth (layout_addTable layout p i)).kernel.trans ?_
    rw [table, kernel, Kernel.setInode_setInode]
    rfl
  | indirect more low high present onDisk grown => exact (grown.growth layout).kernel

theorem TakesFirst.iSize (takes : TakesFirst p s s₁) : (s₁.heap p).iSize = (s.heap p).iSize := by
  rw [takes.kernel, Kernel.heap_setInode_self]
  rfl

theorem Collects.iSize (layout : Layout s.part)
    (collects : Collects p s has will blocks s') : (s'.heap p).iSize = (s.heap p).iSize := by
  rw [collects.kernel layout, Kernel.heap_setInode_self]
  rfl

theorem writeLoop_kernel
    (run : writeLoop fdIdx p blocks src count from_ first s = .ok ((), s')) :
    s'.toKernel = s.toKernel.advance fdIdx p (count - from_) := by
  generalize left : count - from_ = n
  induction n using Nat.strongRecOn generalizing s from_ first with
  | ind n ih =>
    by_cases more : from_ < count
    · obtain ⟨-, -, run⟩ := (writeLoop_step more).mp run
      have ends := chunkSize_ends (z := (s.heap p).iSize.toNat) (n := n) (by omega)
      rw [left] at run
      refine (ih (n - chunkSize (s.heap p).iSize.toNat n) (by omega) run (by omega)).trans ?_
      refine (Kernel.advance_advance s.toKernel fdIdx p _ _).trans ?_
      congr 1
      omega
    · rw [writeLoop_done (by omega)] at run
      cases run
      have none : n = 0 := by omega
      rw [none, Kernel.advance_zero]

section
variable {count : Word} (writes : Writes fdIdx p src count s s₁ blocks s₂ s₃ s') (layout : Layout s.part)
include writes layout

theorem Writes.kernel :
    s'.toKernel = { s.toKernel.setInode p { (s.heap p).withSectors (s'.heap p).iSectors with
      iSize := (s.heap p).iSize + count } with
      fileTable := update s.fileTable fdIdx { s.fileTable fdIdx with fdPos := (s.heap p).iSize - 1 + count } } := by
  have first := writes.first.kernel
  have collects := writes.collects.kernel (layout.congr writes.first.geometry)
  have held : s₁.heap p = (s.heap p).withSectors (s₁.heap p).iSectors := by
    conv_lhs => rw [first]
    exact Kernel.heap_setInode_self _ _ _
  -- The two ways to get blocks together.
  have blocks : s₂.toKernel = s.toKernel.setInode p ((s.heap p).withSectors (s₂.heap p).iSectors) := by
    grind [Inode.withSectors_withSectors, Kernel.setInode_setInode]
  have held₂ : s₂.heap p = (s.heap p).withSectors (s₂.heap p).iSectors := by
    conv_lhs => rw [blocks]
    exact Kernel.heap_setInode_self _ _ _
  have seek : (s₂.seekLast fdIdx p).toKernel = { s.toKernel.setInode p (s₂.heap p) with
      fileTable := update s.fileTable fdIdx { s.fileTable fdIdx with fdPos := (s₂.heap p).iSize - 1 } } := by
    unfold Fs.seekLast Fs.setFile
    rw [blocks, ← held₂, Kernel.heap_setInode_self]
    rfl
  have last : s'.toKernel = s₃.toKernel := by
    rw [writes.last]
    rfl
  have moves := writeLoop_kernel writes.moves
  rw [Nat.sub_zero, seek, Kernel.advance_seekLast, BitVec.ofNat_toNat, BitVec.setWidth_eq] at moves
  have heap : s'.heap p = { s₂.heap p with iSize := (s₂.heap p).iSize + count } := by
    rw [last, moves]
    exact Kernel.heap_setInode_self s.toKernel p _
  have sectors : (s'.heap p).iSectors = (s₂.heap p).iSectors := by rw [heap]
  rw [sectors, last, moves, held₂]
  rfl

theorem Writes.inode :
    s'.heap p = { (s.heap p).withSectors (s'.heap p).iSectors with iSize := (s.heap p).iSize + count } := by
  conv_lhs => rw [writes.kernel layout]
  exact Kernel.heap_setInode_self s.toKernel p _

theorem Writes.collected (owns : s.Owns (s.heap p)) (shape : s.FileShape (s.heap p) has) :
    (s.heap p).iSize.toNat + count.toNat = ((s.heap p).iSize + count).toNat ∧
      Collected p s has (((s.heap p).iSize + count).toNat / 512 + 1) blocks s₂ := by
  have layout₁ := layout.congr writes.first.geometry
  have size₂ : (s₂.heap p).iSize = (s.heap p).iSize :=
    (writes.collects.iSize layout₁).trans writes.first.iSize
  have noWrap : (s.heap p).iSize.toNat + count.toNat = ((s.heap p).iSize + count).toNat := by
    have bound := writeLoop_bound writes.moves
    have size : ((s₂.seekLast fdIdx p).heap p).iSize = (s.heap p).iSize := size₂
    rw [size] at bound
    rw [BitVec.toNat_add]
    have := (s.heap p).iSize.isLt
    omega
  refine ⟨noWrap, ?_⟩
  have small := writes.small
  have collects := writes.collects
  rcases shape.size with ⟨rfl, zero⟩ | size
  · -- The file gets its first block before the others.
    have none : (s.heap p).sector 0 = 0 := by
      by_contra some
      exact absurd ((shape.blocks 0 (by decide)).mp some) (by decide)
    obtain ⟨_, first⟩ := writes.first.collected layout none
    have one : (s.heap p).iSize.toNat / 512 + 1 = 1 := by rw [zero]; rfl
    rw [one] at collects
    exact first.trans layout (collects.collected layout₁ (first.extended.owns owns)
      (first.hasBlocks layout shape.blocks (by decide)) (by omega) small) (by omega)
  · have some : (s.heap p).sector 0 ≠ 0 := (shape.blocks 0 (by decide)).mpr (by omega)
    rw [← size] at collects
    cases writes.first with
    | present => exact collects.collected layout owns shape.blocks (by omega) small
    | taken none => exact absurd none some

end

structure Moved (p z n : Nat) (src : Memory) (s s' : Fs) : Prop where
  pointer : ∀ k, s'.volume.pointer (s'.heap p) k = s.volume.pointer (s.heap p) k
  other : ∀ lba, ¬ s.volume.Reaches (s.heap p) lba → s'.volume.block lba = s.volume.block lba
  content : ∀ x, x < z + n → s'.volume.byte (s'.heap p) x = if x < z then s.volume.byte (s.heap p) x else src (x - z)

theorem writeLoop_moved
    (layout : Layout s.part) (owns : s.Owns (s.heap p)) (hasBlocks : s.volume.HasBlocks (s.heap p) will)
    (size : (s.heap p).iSize.toNat = z) (fits : z + n < 512 * will) (small : will ≤ 140)
    (given : ∀ k, z / 512 ≤ k → k < will → blocks k = s.volume.pointer (s.heap p) k)
    (run : writeLoop fdIdx p blocks src n 0 true s = .ok ((), s')) :
    Written fdIdx p z s blocks src n true s' ∧ Moved p z n src s s' := by
  have some (k : Nat) (below : k < will) : s.volume.pointer (s.heap p) k ≠ 0 := (hasBlocks k (by omega)).mpr below
  have apart (k k' : Nat) (hk : k < will) (hk' : k' ≤ 140)
      (same : (s.volume.pointer (s.heap p) k).toNat = (s.volume.pointer (s.heap p) k').toNat) : k = k' :=
    owns.apart k k' (by omega) hk' (some k hk) (BitVec.eq_of_toNat_eq same)
  have written := writeLoop_written layout size (Nat.sub_zero n)
    (fun x low high => by
      obtain ⟨i, ⟨-, sum⟩, -⟩ := owns.used (x / 512) (by omega) (some _ (by omega))
      rw [given _ (by omega) (by omega)]
      omega)
    (fun x x' low high low' high' same => by grind)
    run
  have heap : s'.heap p = { s.heap p with iSize := (s.heap p).iSize + BitVec.ofNat 32 n } := by
    rw [written.kernel, Kernel.heap_advance]
  -- A block at a position before the end, or the table, is left alone.
  have frame (k : Nat) (hk : k ≤ 140) (before : k < z / 512 ∨ will ≤ k) :
      s'.volume.block (s.volume.pointer (s.heap p) k).toNat = s.volume.block (s.volume.pointer (s.heap p) k).toNat :=
        by grind [written.outside]
  have pointer (k : Nat) : s'.volume.pointer (s'.heap p) k = s.volume.pointer (s.heap p) k := by
    refine Volume.pointer_congr (fun j => by rw [heap]; rfl) (fun _ => ?_) k
    exact frame 140 (Nat.le_refl _) (by omega)
  have window : src.window 0 = src := by
    funext x
    rw [Memory.window, Nat.zero_add]
  rw [window] at written
  refine ⟨written, pointer, ?_, ?_⟩
  · intro lba away
    refine written.outside lba fun x low high same => away ?_
    rw [given _ (by omega) (by omega)] at same
    exact ⟨x / 512, by omega, some _ (by omega), same⟩
  · intro x high
    unfold Volume.byte
    rw [pointer]
    split
    next below =>
      by_cases here : x / 512 = z / 512
      · -- The sector with the old end keeps its first bytes.
        have first := written.before rfl (x % 512) (by omega)
        rwa [given (z / 512) (by omega) (by omega), ← here] at first
      · rw [frame _ (by omega) (by omega)]
    next above =>
      have inside := written.inside x (by omega) high
      rwa [given _ (by omega) (by omega)] at inside

structure FileWritten (fdIdx p has will : Nat) (src : Memory) (count : Word) (s s' : Fs) : Prop where
  noWrap : (s.heap p).iSize.toNat + count.toNat = ((s.heap p).iSize + count).toNat
  blocks : will = ((s.heap p).iSize.toNat + count.toNat) / 512 + 1
  small : will ≤ 140
  extended : Extended s s' (s.heap p) (s'.heap p) (NewBlocks has will)
  hasBlocks : s'.volume.HasBlocks (s'.heap p) will
  inode : s'.heap p = { (s.heap p).withSectors (s'.heap p).iSectors with iSize := (s.heap p).iSize + count }
  kernel : s'.toKernel = { s.toKernel.setInode p (s'.heap p) with
    fileTable := update s.fileTable fdIdx { s.fileTable fdIdx with fdPos := (s.heap p).iSize - 1 + count } }
  record : s'.volume.record = update s.volume.record (syncSlot (s.heap p)) (s'.heap p).pureInode
  inodeBits : s'.volume.bit .inode = s.volume.bit .inode
  other : ∀ lba, ¬ s'.volume.Reaches (s'.heap p) lba → s'.volume.block lba = s.volume.block lba
  content : ∀ x, x < (s.heap p).iSize.toNat + count.toNat → s'.volume.byte (s'.heap p) x =
    if x < (s.heap p).iSize.toNat then s.volume.byte (s.heap p) x else src (x - (s.heap p).iSize.toNat)
  tableOnDisk : 12 < will → ((s'.heap p).sector 12).toNat ≤ maxLba
  sync : (has ≤ 12 → 12 < will → ∃ k i j, max has 1 ≤ k ∧ k < will ∧ s.BlockNo (s'.volume.pointer (s'.heap p) k) i ∧
    s.BlockNo (s'.volume.pointer (s'.heap p) 140) j ∧ j / 4096 = i / 4096) → s.volume.KeepsSync s'.volume

theorem Writes.written {count : Word}
    (writes : Writes fdIdx p src count s s₁ blocks s₂ s₃ s') (layout : Layout s.part) (owns : s.Owns (s.heap p))
    (shape : s.FileShape (s.heap p) has) :
    FileWritten fdIdx p has (((s.heap p).iSize.toNat + count.toNat) / 512 + 1) src count s s' ∧
      ∀ k, has ≤ k + 1 → k < ((s.heap p).iSize.toNat + count.toNat) / 512 + 1 →
        blocks k = s'.volume.pointer (s'.heap p) k := by
  obtain ⟨noWrap, collected⟩ := writes.collected layout owns shape
  have small := writes.small
  have moves := writes.moves
  have last := writes.last
  rw [← noWrap] at collected small
  have extended := collected.extended
  have owns₂ := extended.owns owns
  have layout₂ := layout.congr extended.geometry
  have less : has ≤ (s.heap p).iSize.toNat / 512 + 1 := by
    have := shape.size
    omega
  have hasBlocks₂ := collected.hasBlocks layout shape.blocks (by omega)
  have heap₂ : s₂.heap p = (s.heap p).withSectors (s₂.heap p).iSectors := by
    conv_lhs => rw [collected.kernel]
    exact Kernel.heap_setInode_self _ _ _
  have size₂ : ((s₂.seekLast fdIdx p).heap p).iSize.toNat = (s.heap p).iSize.toNat := by
    have same : (s₂.seekLast fdIdx p).heap p = s₂.heap p := rfl
    rw [same, heap₂]
    rfl
  obtain ⟨written, moved⟩ :=
    writeLoop_moved (s := s₂.seekLast fdIdx p) layout₂ ⟨owns₂.used, owns₂.apart⟩ hasBlocks₂ size₂
    (by omega) small (fun k low below => collected.given k (by omega) below) moves
  have moved : Moved p _ _ src s₂ s₃ := ⟨moved.pointer, moved.other, moved.content⟩
  have layout₃ : Layout s₃.part := by
    rw [written.part]
    exact layout₂
  have slot : syncSlot (s₃.heap p) < 4096 := by
    unfold syncSlot
    omega
  have volume := volume_putRecord layout₃ slot (s₃.heap p).pureInode
  rw [← last] at volume
  have kernel : s'.toKernel = s₃.toKernel := by
    rw [last]
    rfl
  have heap₃ : s₃.heap p = { (s.heap p).withSectors (s₂.heap p).iSectors with iSize := (s.heap p).iSize + count } := by
    have seek : (s₂.seekLast fdIdx p).toKernel.heap p = s₂.heap p := rfl
    rw [written.kernel, Kernel.heap_advance, seek, heap₂, BitVec.ofNat_toNat, BitVec.setWidth_eq]
    rfl
  have number : syncSlot (s₃.heap p) = syncSlot (s.heap p) := by
    rw [heap₃]
    rfl
  have pointer (k : Nat) : s'.volume.pointer (s'.heap p) k = s₂.volume.pointer (s₂.heap p) k := by
    rw [kernel, volume]
    exact (Volume.pointer_congr (fun _ => rfl) (fun _ => rfl) k).trans (moved.pointer k)
  have bits : s'.volume.bit = s₂.volume.bit := by
    rw [volume]
    exact written.bit
  have block : s'.volume.block = s₃.volume.block := by
    rw [volume]
    rfl
  refine ⟨?_, fun k low below => by rw [pointer, collected.given k low below]⟩
  exact {
    noWrap := noWrap
    blocks := rfl
    small := small
    extended := by
      refine extended.congr ?_ (congrFun bits .block) pointer
      rw [last]
      exact congrArg Partition.geometry written.part
    hasBlocks := fun k hk => by
      rw [pointer]
      exact hasBlocks₂ k hk
    inode := writes.inode layout
    kernel := by
      conv_rhs => rw [writes.inode layout]
      exact writes.kernel layout
    record := by
      rw [volume, kernel, ← number, ← collected.record]
      exact congrArg (update · _ _) written.record
    inodeBits := by
      rw [bits, collected.inodeBits]
    other := by
      intro lba away
      have away₂ : ¬ s₂.volume.Reaches (s₂.heap p) lba := by
        simpa only [Volume.Reaches, pointer] using away
      rw [block, moved.other lba away₂]
      refine collected.block lba fun high same => away₂ ⟨140, Nat.le_refl _, ?_, same.symm⟩
      intro none
      exact (hasBlocks₂ 12 (by decide)).mpr high (Volume.pointer_of_no_table none (by decide))
    content := by
      intro x high
      have same : s'.volume.byte (s'.heap p) x = s₃.volume.byte (s₃.heap p) x := by
        unfold Volume.byte
        rw [pointer, moved.pointer, block]
      rw [same, moved.content x high]
      split
      next below =>
        -- The old data is in blocks that the file had before.
        have old : ¬ NewBlocks has (((s.heap p).iSize.toNat + count.toNat) / 512 + 1) (x / 512) := by
          grind [shape.size, NewBlocks]
        have some := (hasBlocks₂ (x / 512) (by omega)).mpr (by omega)
        unfold Volume.byte
        rw [← extended.kept _ (by omega) old]
        refine congrFun (collected.block _ fun _ table => ?_) _
        have := owns₂.apart (x / 512) 140 (by omega) (by omega) some (BitVec.eq_of_toNat_eq table)
        omega
      next => rfl
    tableOnDisk := fun high => by
      have table := pointer 140
      rw [Volume.pointer_table, Volume.pointer_table] at table
      rw [table]
      exact collected.onDisk high
    sync := by
      simp only [pointer]
      intro masked
      refine (collected.sync masked).trans (.of_eq bits ?_)
      rw [volume]
      exact written.stored }

end

end LaiMiniOs
