import LaiMiniOs.Fs.Format

/-! What `partition_format` leaves on the disk and `mount_partition` finds there.

The areas of the partition do not overlap as long as their sector numbers do not wrap, so
each is read back as it was written. The block bitmap is the one that can come out wrong.
-/

set_option autoImplicit false

namespace LaiMiniOs
open Foundation Prog Function

theorem divRoundUp_toNat {x : Word} (h : x.toNat + 4095 < 2 ^ 32) :
    (divRoundUp x 4096).toNat = (x.toNat + 4095) / 4096 := by
  have sum : (x + 4096 - 1).toNat = x.toNat + 4095 := by
    bv_omega
  rw [divRoundUp, BitVec.toNat_udiv, sum]
  rfl

theorem divRoundUp_wraps {x : Word} (h : 2 ^ 32 ≤ x.toNat + 4095) : divRoundUp x 4096 = 0 := by
  apply BitVec.eq_of_toNat_eq
  have sum : (x + 4096 - 1).toNat = x.toNat + 4095 - 2 ^ 32 := by
    bv_omega
  rw [divRoundUp, BitVec.toNat_udiv, sum]
  have step : (4096 : Word).toNat = 4096 := rfl
  exact Nat.div_eq_of_lt (by omega)

section
variable {secCnt : Word}

theorem freeSects_toNat (large : 620 ≤ secCnt.toNat) : (freeSects secCnt).toNat = secCnt.toNat - 611 := by
  rw [freeSects]
  bv_omega

theorem sizes_of_fits (large : 620 ≤ secCnt.toNat) (fits : secCnt.toNat - 611 + 4095 < 2 ^ 32) :
    (blockBitmapBitLen secCnt).toNat = (secCnt.toNat - 611) - (secCnt.toNat - 611 + 4095) / 4096 ∧
      (blockBitmapSects secCnt).toNat = ((blockBitmapBitLen secCnt).toNat + 4095) / 4096 := by
  have free := freeSects_toNat large
  have first := divRoundUp_toNat (x := freeSects secCnt) (by omega)
  have len : (blockBitmapBitLen secCnt).toNat =
      (secCnt.toNat - 611) - (secCnt.toNat - 611 + 4095) / 4096 := by
    rw [blockBitmapBitLen, BitVec.toNat_sub, first, free]
    omega
  refine ⟨len, ?_⟩
  rw [blockBitmapSects, divRoundUp_toNat (by omega)]

theorem fits_of_pos (large : 620 ≤ secCnt.toNat) (some : 0 < (blockBitmapSects secCnt).toNat) :
    secCnt.toNat - 611 + 4095 < 2 ^ 32 := by
  by_contra wraps
  have free := freeSects_toNat large
  have none := divRoundUp_wraps (x := freeSects secCnt) (by omega)
  have len : blockBitmapBitLen secCnt = freeSects secCnt := by
    rw [blockBitmapBitLen, none]
    exact BitVec.sub_zero _
  rw [blockBitmapSects, len, none] at some
  exact absurd some (by decide)

end

theorem getLsbD_clearBits (n k : Nat) (byte : Byte) (hk : k < 8) :
    (clearBits n byte).getLsbD k = (byte.getLsbD k && decide (n ≤ k)) := by
  induction n with
  | zero => simp [clearBits]
  | succ n ih =>
    grind [clearBits, Bitmap.mask_eq]

section
variable {bitLen len : Nat}

theorem bit_blockBitmapBuf_low {i : Nat} (h : i < 8 * (bitLen / 8)) :
    Bitmap.bit ⟨len, blockBitmapBuf bitLen⟩ i = decide (i = 0) := by
  have before : i / 8 ≠ bitLen / 8 := by omega
  simp only [Bitmap.bit, blockBitmapBuf, update_of_ne before]
  grind [Memory.splice_outside, Memory.zero]

/-- The loop that clears the tail runs one step too far: the bit behind the last block is free. -/
theorem bit_blockBitmapBuf_end : Bitmap.bit ⟨len, blockBitmapBuf bitLen⟩ bitLen = false := by
  simp only [Bitmap.bit, blockBitmapBuf, update_self]
  rw [getLsbD_clearBits _ _ _ (Nat.mod_lt _ (by decide))]
  simp

end

def formattedDisk (pad : Memory) (s : Fs) : Memory :=
  let sb := formatSuperBlock s.part.startLba s.part.secCnt
  let disk := storeSectors s.disk (s.part.startLba + 1).toNat (sb.image pad) 1
  let disk := storeSectors disk sb.blockBitmapLba.toNat
    (blockBitmapBuf (blockBitmapBitLen s.part.secCnt).toNat) sb.blockBitmapSects.toNat
  let disk := storeSectors disk sb.inodeBitmapLba.toNat inodeBitmapBuf sb.inodeBitmapSects.toNat
  let disk := storeSectors disk sb.inodeTableLba.toNat
    (Memory.zero.splice 0 (rootInode sb.dataStartLba).image inodeSize) sb.inodeTableSects.toNat
  storeSectors disk sb.dataStartLba.toNat (newDirBuf 0 0) 1

structure FormatRuns (part : Partition) (sb : SuperBlock) : Prop where
  superBlock : Addressable (part.startLba + 1).toNat 1
  buffer : (blockBitmapBitLen part.secCnt).toNat / 8 + (512 - (blockBitmapBitLen part.secCnt).toNat / 8 % 512) ≤
    max (max sb.blockBitmapSects.toNat sb.inodeBitmapSects.toNat) sb.inodeTableSects.toNat * 512
  blockBitmap : Addressable sb.blockBitmapLba.toNat sb.blockBitmapSects.toNat
  inodeBitmap : Addressable sb.inodeBitmapLba.toNat sb.inodeBitmapSects.toNat
  inodeTable : Addressable sb.inodeTableLba.toNat sb.inodeTableSects.toNat
  data : Addressable sb.dataStartLba.toNat 1

abbrev Fs.newSuperBlock (s : Fs) : SuperBlock := formatSuperBlock s.part.startLba s.part.secCnt

theorem partitionFormat_eq {pad : Memory} {s : Fs}
    (runs : FormatRuns s.part s.newSuperBlock) :
    partitionFormat pad s = .ok ((), { s with disk := formattedDisk pad s }) := by
  unfold partitionFormat
  rw [get_bind, bind_of_ok (ideWrite_eq runs.superBlock),
    require_bind runs.buffer, bind_of_ok (ideWrite_eq runs.blockBitmap),
    bind_of_ok (ideWrite_eq runs.inodeBitmap), bind_of_ok (ideWrite_eq runs.inodeTable),
    ideWrite_eq runs.data]
  rfl

theorem formatRuns_of_ok {pad : Memory} {s : Fs} {r : Unit × Fs} (run : partitionFormat pad s = .ok r) :
    FormatRuns s.part s.newSuperBlock := by
  unfold partitionFormat at run
  rw [get_bind] at run
  obtain ⟨_, s₁, first, run⟩ := bind_eq_ok.mp run
  obtain ⟨_, s₂, room, run⟩ := bind_eq_ok.mp run
  obtain ⟨_, s₃, second, run⟩ := bind_eq_ok.mp run
  obtain ⟨_, s₄, third, run⟩ := bind_eq_ok.mp run
  obtain ⟨_, s₅, fourth, last⟩ := bind_eq_ok.mp run
  exact ⟨(ideWrite_eq_ok.mp first).1, (require_eq_ok.mp room).1, (ideWrite_eq_ok.mp second).1,
    (ideWrite_eq_ok.mp third).1, (ideWrite_eq_ok.mp fourth).1, (ideWrite_eq_ok.mp last).1⟩

/-- The areas of the partition follow each other without a wrap. -/
structure Areas (startLba secCnt : Word) : Prop where
  superBlock : (startLba + 1).toNat = startLba.toNat + 1
  blockBitmap : (formatSuperBlock startLba secCnt).blockBitmapLba.toNat = startLba.toNat + 2
  inodeBitmap : (formatSuperBlock startLba secCnt).inodeBitmapLba.toNat =
    startLba.toNat + 2 + (blockBitmapSects secCnt).toNat
  inodeTable : (formatSuperBlock startLba secCnt).inodeTableLba.toNat =
    startLba.toNat + 3 + (blockBitmapSects secCnt).toNat
  dataStart : (formatSuperBlock startLba secCnt).dataStartLba.toNat =
    startLba.toNat + 611 + (blockBitmapSects secCnt).toNat

theorem areas_of_lt {startLba secCnt : Word}
    (h : startLba.toNat + 611 + (blockBitmapSects secCnt).toNat < 2 ^ 32) : Areas startLba secCnt := by
  refine ⟨by bv_omega, ?_, ?_, ?_, ?_⟩ <;> simp only [formatSuperBlock] <;> bv_omega

section
variable (pad : Memory) {s : Fs} (areas : Areas s.part.startLba s.part.secCnt)
include areas

theorem sectors_formattedDisk_superBlock :
    sectors (formattedDisk pad s) (s.part.startLba + 1).toNat 1 =
      (s.newSuperBlock.image pad).clip 512 := by
  obtain ⟨h₁, h₂, h₃, h₄, h₅⟩ := areas
  grind [formattedDisk, sectors_storeSectors_of_apart, sectors_storeSectors_self]

theorem sectors_formattedDisk_blockBitmap :
    sectors (formattedDisk pad s) s.newSuperBlock.blockBitmapLba.toNat
        (blockBitmapSects s.part.secCnt).toNat =
      (blockBitmapBuf (blockBitmapBitLen s.part.secCnt).toNat).clip
        (512 * (blockBitmapSects s.part.secCnt).toNat) := by
  obtain ⟨h₁, h₂, h₃, h₄, h₅⟩ := areas
  simp only [formattedDisk, Fs.newSuperBlock]
  rw [sectors_storeSectors_of_apart _ _ (by omega), sectors_storeSectors_of_apart _ _ (by omega),
    sectors_storeSectors_of_apart _ _ (by omega)]
  exact sectors_storeSectors_self _ _ _ _

theorem sectors_formattedDisk_inodeBitmap :
    sectors (formattedDisk pad s) s.newSuperBlock.inodeBitmapLba.toNat 1 =
      inodeBitmapBuf.clip 512 := by
  obtain ⟨h₁, h₂, h₃, h₄, h₅⟩ := areas
  simp only [formattedDisk, Fs.newSuperBlock]
  rw [sectors_storeSectors_of_apart _ _ (by omega), sectors_storeSectors_of_apart _ _ (by omega)]
  exact sectors_storeSectors_self _ _ _ _

theorem sectors_formattedDisk_inodeTable :
    sectors (formattedDisk pad s) s.newSuperBlock.inodeTableLba.toNat 608 =
      (Memory.zero.splice 0 (rootInode s.newSuperBlock.dataStartLba).image
        inodeSize).clip (512 * 608) := by
  obtain ⟨h₁, h₂, h₃, h₄, h₅⟩ := areas
  simp only [formattedDisk, Fs.newSuperBlock]
  rw [sectors_storeSectors_of_apart _ _ (by omega)]
  exact sectors_storeSectors_self _ _ _ _

theorem inodeAt_formattedDisk :
    Inode.read (formattedDisk pad s)
        (512 * s.newSuperBlock.inodeTableLba.toNat + 76 * 0) =
      rootInode s.newSuperBlock.dataStartLba := by
  rw [← read_sectors _ _ (by decide : 76 * 0 + inodeSize ≤ 512 * 608), sectors_formattedDisk_inodeTable pad areas]
  grind [Inode.read_congr, Inode.read_splice_image, Memory.clip_apply]

omit areas in
theorem rootEntry_formattedDisk {k : Nat} (hk : k < 21) :
    DirEntry.read (sectors (formattedDisk pad s)
        s.newSuperBlock.dataStartLba.toNat 1) (24 * k) =
      DirEntry.read (newDirBuf 0 0) (24 * k) := by
  have block : sectors (formattedDisk pad s) s.newSuperBlock.dataStartLba.toNat 1 =
      (newDirBuf 0 0).clip (512 * 1) := sectors_storeSectors_self _ _ _ _
  rw [block]
  apply DirEntry.read_congr
  intro i hi
  rw [Memory.clip_apply (by omega)]

end

def mountedPart (part : Partition) : Partition :=
  let sb := formatSuperBlock part.startLba part.secCnt
  { part with
    sb := sb
    blockBitmap := ⟨(sb.blockBitmapSects * 512).toNat,
      (blockBitmapBuf (blockBitmapBitLen part.secCnt).toNat).clip
        (512 * (blockBitmapSects part.secCnt).toNat)⟩
    inodeBitmap := ⟨(sb.inodeBitmapSects * 512).toNat, inodeBitmapBuf.clip 512⟩ }

theorem mountPartition_formatted {pad : Memory} {s : Fs} (areas : Areas s.part.startLba s.part.secCnt)
    (runs : FormatRuns s.part s.newSuperBlock) :
    mountPartition { s with disk := formattedDisk pad s } =
      .ok ((), { s with disk := formattedDisk pad s, part := mountedPart s.part, openInodes := [] }) := by
  have record : SuperBlock.read (sectors (formattedDisk pad s) (s.part.startLba + 1).toNat 1) =
      s.newSuperBlock := by
    rw [sectors_formattedDisk_superBlock pad areas]
    refine (SuperBlock.read_congr fun a _ high => ?_).trans (SuperBlock.read_image _ pad)
    exact Memory.clip_apply (by omega)
  unfold mountPartition
  rw [get_bind, bind_of_ok (ideRead_eq runs.superBlock), record,
    bind_of_ok (ideRead_eq runs.blockBitmap), bind_of_ok (ideRead_eq runs.inodeBitmap), run_set]
  have blocks := sectors_formattedDisk_blockBitmap pad areas
  have inodes := sectors_formattedDisk_inodeBitmap pad areas
  simp only [mountedPart, ← inodes, ← blocks]
  rfl

theorem formatRuns_of_areas {s : Fs} (areas : Areas s.part.startLba s.part.secCnt)
    (low : 1 ≤ (blockBitmapSects s.part.secCnt).toNat) (high : (blockBitmapSects s.part.secCnt).toNat ≤ 607)
    (bits : (blockBitmapBitLen s.part.secCnt).toNat ≤ 4096 * (blockBitmapSects s.part.secCnt).toNat)
    (onDisk : s.part.startLba.toNat + 611 + (blockBitmapSects s.part.secCnt).toNat ≤ maxLba) :
    FormatRuns s.part s.newSuperBlock := by
  simp only [maxLba] at onDisk
  obtain ⟨h₁, h₂, h₃, h₄, h₅⟩ := areas
  have one : s.newSuperBlock.inodeBitmapSects.toNat = 1 := rfl
  have table : s.newSuperBlock.inodeTableSects.toNat = 608 := rfl
  have blocks : s.newSuperBlock.blockBitmapSects.toNat = (blockBitmapSects s.part.secCnt).toNat := rfl
  constructor <;> simp only [Addressable, maxLba, one, table, blocks, h₁, h₂, h₃, h₄, h₅] <;> omega

theorem blockBitmapSects_lt (secCnt : Word) : (blockBitmapSects secCnt).toNat < 2 ^ 21 := by
  have step : (4096 : Word).toNat = 4096 := rfl
  rw [blockBitmapSects, divRoundUp, BitVec.toNat_udiv, step]
  omega

theorem sizes_of_onDisk {startLba secCnt : Word} (large : 620 ≤ secCnt.toNat)
    (onDisk : startLba.toNat + secCnt.toNat ≤ maxLba + 1) :
    1 ≤ (blockBitmapSects secCnt).toNat ∧ (blockBitmapSects secCnt).toNat ≤ 40 ∧
      (blockBitmapBitLen secCnt).toNat ≤ 4096 * (blockBitmapSects secCnt).toNat ∧
      611 + (blockBitmapSects secCnt).toNat < secCnt.toNat := by
  have bound : secCnt.toNat ≤ 163840 := Nat.le_trans (Nat.le_add_left _ _) onDisk
  obtain ⟨len, sects⟩ := sizes_of_fits large (by omega)
  clear onDisk
  refine ⟨?_, ?_, ?_, ?_⟩ <;> omega

theorem layout_mountedPart {part : Partition} (large : 620 ≤ part.secCnt.toNat)
    (onDisk : part.startLba.toNat + part.secCnt.toNat ≤ maxLba + 1) : Layout (mountedPart part) := by
  obtain ⟨-, few, -, room⟩ := sizes_of_onDisk large onDisk
  simp only [maxLba] at onDisk
  obtain ⟨h₁, h₂, h₃, h₄, h₅⟩ : Areas part.startLba part.secCnt := areas_of_lt (by omega)
  have count : (mountedPart part).sb.blockBitmapSects.toNat = (blockBitmapSects part.secCnt).toNat := rfl
  have data : (mountedPart part).sb.dataStartLba.toNat = _ := h₅
  have table : (mountedPart part).sb.inodeTableLba.toNat = _ := h₄
  have inodes : (mountedPart part).sb.inodeBitmapLba.toNat = _ := h₃
  have blocks : (mountedPart part).sb.blockBitmapLba.toNat = _ := h₂
  have start : (mountedPart part).startLba.toNat = part.startLba.toNat := rfl
  have size : (mountedPart part).secCnt.toNat = part.secCnt.toNat := rfl
  exact {
    blockBitmap := blocks
    inodeBitmap := by omega
    inodeTable := by omega
    dataStart := by omega
    blockBytes := by grind [mountedPart, BitVec.toNat_mul]
    inodeBytes := by
      have bytes : ((1 : Word) * 512).toNat = 512 := by decide
      exact bytes
    entrySize := rfl
    rootNo := rfl
    ends := by omega
    inside := by omega
    onDisk := by
      simp only [maxLba]
      omega
    numbered := by omega }

/-- Formatting and mounting a partition on the disk give the layout that the rest of the file system relies on. -/
theorem partitionFormat_layout {s : Fs} (pad : Memory) (large : 620 ≤ s.part.secCnt.toNat)
    (onDisk : s.part.startLba.toNat + s.part.secCnt.toNat ≤ maxLba + 1) :
    ∃ s₁ s₂, partitionFormat pad s = .ok ((), s₁) ∧ mountPartition s₁ = .ok ((), s₂) ∧ Layout s₂.part := by
  obtain ⟨some, few, bits, room⟩ := sizes_of_onDisk large onDisk
  have layout := layout_mountedPart large onDisk
  have reach : s.part.startLba.toNat + 611 + (blockBitmapSects s.part.secCnt).toNat ≤ maxLba := by omega
  have areas : Areas s.part.startLba s.part.secCnt := areas_of_lt (Nat.lt_of_le_of_lt reach (by decide))
  have runs := formatRuns_of_areas areas some (by omega) bits reach
  exact ⟨_, _, partitionFormat_eq runs, mountPartition_formatted areas runs, layout⟩

theorem partitionFormat_layout_blank : 620 ≤ blankFs.part.secCnt.toNat ∧
    blankFs.part.startLba.toNat + blankFs.part.secCnt.toNat ≤ maxLba + 1 ∧
      ∃ s₁ s₂, partitionFormat Memory.zero blankFs = .ok ((), s₁) ∧ mountPartition s₁ = .ok ((), s₂) ∧ Layout s₂.part :=
  ⟨by decide, by decide, partitionFormat_layout Memory.zero (by decide) (by decide)⟩

theorem bit_mountedPart {part : Partition} {i : Nat} (h : i < 4096 * (blockBitmapSects part.secCnt).toNat) :
    (mountedPart part).blockBitmap.bit i =
      Bitmap.bit ⟨0, blockBitmapBuf (blockBitmapBitLen part.secCnt).toNat⟩ i := by
  simp only [Bitmap.bit, mountedPart]
  rw [Memory.clip_apply (by omega)]

section
variable {pad : Memory} {s : Fs}

/-- A bitmap that ends inside a sector offers the sector behind the partition's last block. -/
theorem whole_sectors_of_formats (large : 620 ≤ s.part.secCnt.toNat) (formats : FormatsAndMounts pad s) :
    FormatRuns s.part s.newSuperBlock ∧ Areas s.part.startLba s.part.secCnt ∧
      4096 * (blockBitmapSects s.part.secCnt).toNat = (blockBitmapBitLen s.part.secCnt).toNat := by
  obtain ⟨s₁, s₂, format, mount, formatted⟩ := formats
  have runs := formatRuns_of_ok format
  have areas : Areas s.part.startLba s.part.secCnt := by
    apply areas_of_lt
    have sects := blockBitmapSects_lt s.part.secCnt
    have first := runs.superBlock.2
    have second := formatted.blockBitmap
    simp only [maxLba] at first
    bv_omega
  refine ⟨runs, areas, ?_⟩
  obtain ⟨len, sects⟩ := sizes_of_fits large (fits_of_pos large runs.blockBitmap.1)
  rw [partitionFormat_eq runs, Except.ok.injEq, Prod.mk.injEq] at format
  obtain ⟨-, rfl⟩ := format
  rw [mountPartition_formatted areas runs, Except.ok.injEq, Prod.mk.injEq] at mount
  obtain ⟨-, rfl⟩ := mount
  by_contra ragged
  have inMap : (blockBitmapBitLen s.part.secCnt).toNat < 4096 * (blockBitmapSects s.part.secCnt).toNat := by
    omega
  have bytes := formatted.blockBytes
  simp only [mountedPart, formatSuperBlock] at bytes
  have free := (formatted.freeBits _ (by simp only [mountedPart, formatSuperBlock]; omega)).mp
    ((bit_mountedPart inMap).trans bit_blockBitmapBuf_end)
  exact absurd free.2 (Nat.lt_irrefl _)

theorem bit_inodeBitmapBuf {len i : Nat} (h : i < 4096) :
    Bitmap.bit ⟨len, inodeBitmapBuf.clip 512⟩ i = decide (i = 0) := by
  simp only [Bitmap.bit]
  rw [Memory.clip_apply (by omega), inodeBitmapBuf]
  grind [Memory.zero]

/-- A partition whose blocks fill the sectors of their bitmap is formatted as it should be. -/
theorem formatted_of_whole_sectors {m : Nat} (low : 1 ≤ m) (high : m ≤ 607)
    (size : s.part.secCnt.toNat = 612 + 4097 * m) (onDisk : s.part.startLba.toNat + 611 + m ≤ maxLba) :
    FormatsAndMounts pad s := by
  simp only [maxLba] at onDisk
  obtain ⟨len, sects⟩ := sizes_of_fits (by omega : 620 ≤ s.part.secCnt.toNat) (by omega)
  have bits : (blockBitmapBitLen s.part.secCnt).toNat = 4096 * m := by omega
  have count : (blockBitmapSects s.part.secCnt).toNat = m := by omega
  have areas : Areas s.part.startLba s.part.secCnt := areas_of_lt (by omega)
  have runs := formatRuns_of_areas areas (by omega) (by omega) (by omega) (by rw [maxLba]; omega)
  obtain ⟨h₁, h₂, h₃, h₄, h₅⟩ := id areas
  have bytes : (mountedPart s.part).blockBitmap.btmpBytesLen = 512 * m := by
    grind [mountedPart, formatSuperBlock, BitVec.toNat_mul]
  have free (i : Nat) (h : i < 4096 * m) : (mountedPart s.part).blockBitmap.bit i = decide (i = 0) := by
    rw [bit_mountedPart (by omega)]
    exact bit_blockBitmapBuf_low (by omega)
  have maps : (mountedPart s.part).sb.blockBitmapSects.toNat = m := count
  have data : (mountedPart s.part).sb.dataStartLba.toNat =
      s.part.startLba.toNat + 611 + (blockBitmapSects s.part.secCnt).toNat := h₅
  refine ⟨_, _, partitionFormat_eq runs, mountPartition_formatted areas runs, ?_⟩
  exact {
    blockBitmap := h₂
    inodeBitmap := h₃.trans (congrArg (· + _) h₂.symm)
    inodeTable := by
      have one : (mountedPart s.part).sb.inodeBitmapSects.toNat = 1 := rfl
      grind [mountedPart]
    dataStart := by
      have table : (mountedPart s.part).sb.inodeTableSects.toNat = 608 := rfl
      grind [mountedPart]
    inside := by
      rw [data]
      omega
    inodesFit := by
      have table : (mountedPart s.part).sb.inodeTableSects.toNat = 608 := rfl
      rw [table]
      decide
    blockBytes := by rw [bytes, maps]
    blocksFit := by
      rw [bytes]
      omega
    freeBits := by
      intro i h
      rw [bytes] at h
      rw [free i (by omega), decide_eq_false_iff_not]
      omega
    handedOut := by grind
    inodeBytes := by
      have size : ((1 : Word) * 512).toNat = 512 := by decide
      exact size
    inodeBits := by
      intro i h
      exact (Bool.eq_iff_iff.mp (bit_inodeBitmapBuf h)).trans decide_eq_true_iff
    root := by
      simp only [inodeAt, recordAddr, mountedPart]
      exact inodeAt_formattedDisk pad areas
    rootEntries := by grind [read_newDirBuf, rootEntry_formattedDisk] }

/-- Formatting is right exactly for the partitions whose blocks fill the sectors of their bitmap, as long as
the buffer holds the map and the root directory is on the disk. -/
theorem partitionFormat_mountPartition_iff (large : 620 ≤ s.part.secCnt.toNat) :
    FormatsAndMounts pad s ↔ ∃ m, 1 ≤ m ∧ m ≤ 607 ∧ s.part.secCnt.toNat = 612 + 4097 * m ∧
      s.part.startLba.toNat + 611 + m ≤ maxLba := by
  constructor
  · intro formats
    obtain ⟨runs, areas, whole⟩ := whole_sectors_of_formats large formats
    obtain ⟨len, sects⟩ := sizes_of_fits large (fits_of_pos large runs.blockBitmap.1)
    have buffer := runs.buffer
    have data := runs.data.2
    rw [areas.dataStart] at data
    simp only [formatSuperBlock] at buffer
    have one : (1 : Word).toNat = 1 := rfl
    have table : (608 : Word).toNat = 608 := rfl
    rw [one, table] at buffer
    exact ⟨(blockBitmapSects s.part.secCnt).toNat, by omega, by omega, by omega, by omega⟩
  grind [formatted_of_whole_sectors]

theorem partitionFormat_mountPartition_blank :
    620 ≤ blankFs.part.secCnt.toNat ∧ FormatsAndMounts Memory.zero blankFs :=
  ⟨by decide, (partitionFormat_mountPartition_iff (by decide)).mpr ⟨1, by decide, by decide, by decide, by decide⟩⟩

/-- Nine free sectors give eight blocks, and a ninth bit that is free. -/
theorem partitionFormat_offers_last_bit :
    620 ≤ (620 : Word).toNat ∧
      ¬ FormatsAndMounts Memory.zero { blankFs with part := { smallPartition with secCnt := 620 } } := by
  refine ⟨by decide, fun formats => ?_⟩
  have whole := (whole_sectors_of_formats (by decide) formats).2.2
  exact absurd whole (by decide)

end

end LaiMiniOs
